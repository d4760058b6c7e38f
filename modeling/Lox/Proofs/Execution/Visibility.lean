import Lox.Proofs.Execution.Bound
import Lox.Proofs.Execution.Refinement
import Lox.Proofs.Stack.Correspondence
import Mathlib.Data.Set.Basic
import Std.Data.TreeMap.Lemmas

/-!
# Only visible bindings matter

A program meets its environment through the names that occur in it, and a name through the nearest
scope that has it.  Two environments that agree on what these names stand for are the same to the
program, whatever else is in them and wherever the variables are kept.

Agreement on visible values alone is not kept by a block: when the block is left, the scopes below
its own come to light again.  So `Agree N depth` asks for more in the scopes that were entered
since, which must have the very same variables of `N`, and for visible values only in those that
were there before.

* `visible?_define`, `assign?_cases`: what a definition and an assignment do to visible values.
* `visible N`: **agreement is a correspondence,** so every program keeps it.
* `visible_bindings_decide`: environments that agree on the names of a program are left in agreement
  by it, and it ends in both or in neither, with the same output and the same error.
-/

namespace Lox

open SharedList SharedList.Store Scopes

namespace Stack

/-! ### Visible values -/

/-- The value of a variable in the nearest scope that has it. -/
def visible? (name : String) (l : List Scope) : Option Value :=
  l.findSome? fun scope => scope[name]?

@[simp]
theorem visible?_cons (name : String) (scope : Scope) (l : List Scope) :
    visible? name (scope :: l) = scope[name]?.or (visible? name l) := by
  rw [visible?, List.findSome?_cons, visible?]
  cases scope[name]? with
  | none => rfl
  | some v => rfl

@[simp]
theorem getElem?_insert_eq (scope : Scope) (name y : String) (v : Value) :
    (scope.insert name v)[y]? = if y = name then some v else scope[y]? := by
  rw [Std.TreeMap.getElem?_insert]
  by_cases h : y = name
  · simp [h]
  · simp [h, Ne.symm h]

theorem visible?_insert (name y : String) (v : Value) (scope : Scope) (l : List Scope) :
    visible? y (scope.insert name v :: l) =
      if y = name then some v else visible? y (scope :: l) := by
  rw [visible?_cons, visible?_cons, getElem?_insert_eq]
  by_cases h : y = name
  · rw [if_pos h, if_pos h]
    rfl
  · rw [if_neg h, if_neg h]

/-- **A definition makes its value visible,** and changes no other visible value. -/
theorem visible?_define (name y : String) (v : Value) {l : List Scope} (hl : l ≠ []) :
    visible? y (define name v l) = if y = name then some v else visible? y l := by
  cases l with
  | nil => exact absurd rfl hl
  | cons scope l => exact visible?_insert name y v scope l

theorem assign?_cases (name : String) (v : Value) (l : List Scope) :
    (visible? name l = none ∧ assign? name v l = none) ∨
      ((visible? name l).isSome ∧ ∃ l₁, assign? name v l = some l₁ ∧ l₁ ≠ [] ∧
        ∀ y, visible? y l₁ = if y = name then some v else visible? y l) := by
  induction l with
  | nil => exact .inl ⟨rfl, rfl⟩
  | cons scope l ih =>
    rw [assign?, visible?_cons]
    by_cases hname : scope.contains name
    · rw [if_pos hname]
      rw [Std.TreeMap.contains_eq_isSome_getElem?] at hname
      refine .inr ⟨by simp [hname], _, rfl, List.cons_ne_nil _ _,
        fun y => visible?_insert name y v scope l⟩
    · have hnone : scope[name]? = none :=
        Std.TreeMap.getElem?_eq_none fun hm => hname (Std.TreeMap.contains_iff_mem.mpr hm)
      rw [if_neg hname, hnone, Option.none_or]
      obtain ⟨hvisible, hassign⟩ | ⟨hvisible, l₁, hassign, -, hl₁⟩ := ih
      · exact .inl ⟨hvisible, by rw [hassign]; rfl⟩
      · refine .inr ⟨hvisible, scope :: l₁, by rw [hassign]; rfl, List.cons_ne_nil _ _,
          fun y => ?_⟩
        rw [visible?_cons, visible?_cons, hl₁]
        by_cases hy : y = name
        · rw [if_pos hy, if_pos hy, hy, hnone]
          rfl
        · rw [if_neg hy, if_neg hy]

/-! ### Agreement -/

/-- Under `depth` scopes with the same variables of `N`, the two stacks show the same values for the
names in `N`. -/
inductive Agree (N : Set String) : Nat → List Scope → List Scope → Prop
  | outer {l l' : List Scope} (hl : l ≠ []) (hl' : l' ≠ [])
      (h : ∀ x ∈ N, visible? x l = visible? x l') : Agree N 0 l l'
  | inner {depth : Nat} {scope scope' : Scope} {l l' : List Scope}
      (h : ∀ x ∈ N, scope[x]? = scope'[x]?) (hl : Agree N depth l l') :
      Agree N (depth + 1) (scope :: l) (scope' :: l')

namespace Agree

variable {N : Set String} {depth : Nat} {l l' : List Scope} {name : String}

theorem visible?_eq (h : Agree N depth l l') (hname : name ∈ N) :
    visible? name l = visible? name l' := by
  induction h with
  | outer _ _ h => exact h name hname
  | inner h _ ih => rw [visible?_cons, visible?_cons, h name hname, ih]

theorem insert {scope scope' : Scope} (h : ∀ x ∈ N, scope[x]? = scope'[x]?) (name : String)
    (v : Value) : ∀ x ∈ N, (scope.insert name v)[x]? = (scope'.insert name v)[x]? := by
  intro x hx
  rw [getElem?_insert_eq, getElem?_insert_eq, h x hx]

theorem define (h : Agree N depth l l') (name : String) (v : Value) :
    Agree N depth (Stack.define name v l) (Stack.define name v l') := by
  cases h with
  | @outer l l' hl hl' h =>
    refine .outer ?_ ?_ fun x hx => ?_
    · cases l with
      | nil => exact absurd rfl hl
      | cons scope l => exact List.cons_ne_nil _ _
    · cases l' with
      | nil => exact absurd rfl hl'
      | cons scope l => exact List.cons_ne_nil _ _
    · rw [visible?_define name x v hl, visible?_define name x v hl', h x hx]
  | inner h hl => exact .inner (insert h name v) hl

/-- **An assignment keeps agreement,** though it may write in different scopes. -/
theorem assign? (h : Agree N depth l l') (hname : name ∈ N) (v : Value) :
    Option.Rel (Agree N depth) (Stack.assign? name v l) (Stack.assign? name v l') := by
  induction h with
  | @outer l l' hl hl' h =>
    have hsame := h name hname
    obtain ⟨hnone, hassign⟩ | ⟨hsome, l₁, hassign, hl₁, hvisible⟩ := assign?_cases name v l <;>
    obtain ⟨hnone', hassign'⟩ | ⟨hsome', l₁', hassign', hl₁', hvisible'⟩ := assign?_cases name v l'
    · rw [hassign, hassign']
      exact .none
    · rw [← hsame, hnone] at hsome'
      cases hsome'
    · rw [hsame, hnone'] at hsome
      cases hsome
    · rw [hassign, hassign']
      refine .some (.outer hl₁ hl₁' fun x hx => ?_)
      rw [hvisible, hvisible', h x hx]
  | @inner depth scope scope' l l' h hl ih =>
    have hcontains : scope.contains name = scope'.contains name := by
      rw [Std.TreeMap.contains_eq_isSome_getElem?, Std.TreeMap.contains_eq_isSome_getElem?,
        h name hname]
    rw [Stack.assign?, Stack.assign?, ← hcontains]
    by_cases hscope : scope.contains name
    · rw [if_pos hscope, if_pos hscope]
      exact .some (.inner (insert h name v) hl)
    · rw [if_neg hscope, if_neg hscope]
      generalize Stack.assign? name v l = r, Stack.assign? name v l' = r' at ih
      cases ih with
      | none => exact .none
      | some hl => exact .some (.inner h hl)

end Agree

/-- One program on two stacks that agree on its names. -/
def visible (N : Set String) : Correspondence :=
  { Correspondence.same with
    Named := fun t => t.lexeme ∈ N
    Scopes := Agree N
    lookup := fun ht h => h.visible?_eq ht
    assign := fun v ht h => h.assign? ht v
    define := fun v _ h => h.define _ v
    push := fun h => .inner (fun _ _ => rfl) h
    pop := fun h => by
      cases h with
      | inner _ hl => exact hl }

theorem visible_follows_execEach {N : Set String} (bound : Nat) {ss : List Stmt}
    (hN : ∀ t ∈ Stmt.namesOf ss, t.lexeme ∈ N) :
    (visible N).Follows 0 (execEach bound ss) (execEach bound ss) := by
  have h := (visible N).follows_execEach bound 0 ss (fun _ _ => trivial) hN
    fun _ _ t v _ hl => hl.define t.lexeme v
  rwa [show Stmt.relabelEach (visible N).label ss = ss from Stmt.relabelEach_id ss] at h

end Stack

/-! ### Environments -/

/-- Every name in `N` is undefined in both environments, or visible in both with the same value. -/
def Scopes.Agree (N : Set String) (s : Scopes) (env : Environment) (s' : Scopes)
    (env' : Environment) : Prop :=
  ∀ x ∈ N, s.lookup? env x = s'.lookup? env' x

theorem Scopes.Held.toList_ne_nil {s : Scopes} {env : Environment} (h : Held s env) :
    s.toList env ≠ [] := by
  obtain ⟨a, c, rfl, hc, -⟩ := h
  rw [toList_some hc]
  exact List.cons_ne_nil _ _

/-- Executing statements comes to this end, without running into the bound on the rounds of a loop.
-/
def Stmt.EndsWith (ss : List Stmt) (env : Environment) (m : Machine)
    (r : EStateM.Result Stop Machine Unit) : Prop :=
  ∃ bound, Stmt.execEach bound ss env m = r ∧ ∀ m', r ≠ .error .exhausted m'

section

variable {N : Set String} {ss : List Stmt} {env env' : Environment} {m m' : Machine}

theorem lockstep_of_agree (hN : ∀ t ∈ Stmt.namesOf ss, t.lexeme ∈ N) (h : Held m.scopes env)
    (h' : Held m'.scopes env') (hsink : m.sink = m'.sink)
    (hagree : Scopes.Agree N m.scopes env m'.scopes env') (bound : Nat) :
    Lockstep Eq Eq (fun m₁ m₁' => m₁.sink = m₁'.sink ∧
        Scopes.Agree N m₁.scopes env m₁'.scopes env')
      (Stmt.execEach bound ss env m) (Stmt.execEach bound ss env' m') := by
  have hstacks : (Stack.visible N).Stacks 0 (m.view env) (m'.view env') :=
    ⟨.outer h.toList_ne_nil h'.toList_ne_nil hagree, hsink⟩
  have hrun := Stack.visible_follows_execEach bound hN _ _ hstacks
  rw [← (Stmt.simulates_execEach bound ss env).mapState_eq h,
    ← (Stmt.simulates_execEach bound ss env').mapState_eq h'] at hrun
  refine hrun.of_mapState.imp (fun _ _ he => he.eq fun _ _ => id) fun m₁ m₁' hst => ?_
  exact ⟨hst.2, fun x hx => hst.1.visible?_eq hx⟩

/-- **Only visible bindings matter.**  Let `N` hold all names that statements read, assign or
declare, and let two environments agree on `N`.  Executing the statements ends in the one if and
only if it ends in the other, and then in the same way: with the same output, the same error if
there is one, and with the environments in agreement on `N` again. -/
theorem visible_bindings_decide (hN : ∀ t ∈ Stmt.namesOf ss, t.lexeme ∈ N)
    (h : Held m.scopes env) (h' : Held m'.scopes env') (hsink : m.sink = m'.sink)
    (hagree : Scopes.Agree N m.scopes env m'.scopes env') :
    ((∃ r, Stmt.EndsWith ss env m r) ↔ ∃ r, Stmt.EndsWith ss env' m' r) ∧
      ∀ r r', Stmt.EndsWith ss env m r → Stmt.EndsWith ss env' m' r' →
        mapState Machine.sink r = mapState Machine.sink r' ∧
          Scopes.Agree N (endOf r).scopes env (endOf r').scopes env' := by
  have hlockstep := lockstep_of_agree hN h h' hsink hagree
  refine ⟨⟨?_, ?_⟩, ?_⟩
  · rintro ⟨_, bound, rfl, hends⟩
    refine ⟨_, bound, rfl, fun m₁' hexhausted => ?_⟩
    obtain ⟨e, m₁, heq, rfl, -⟩ := (hlockstep bound).symm.exists_of_error hexhausted
    exact hends m₁ heq
  · rintro ⟨_, bound, rfl, hends⟩
    refine ⟨_, bound, rfl, fun m₁ hexhausted => ?_⟩
    obtain ⟨e, m₁', heq, rfl, -⟩ := (hlockstep bound).exists_of_error hexhausted
    exact hends m₁' heq
  · rintro r r' ⟨bound, hrun, hends⟩ ⟨bound', hrun', hends'⟩
    -- Both runs are the same under the larger of their bounds.
    have hlarge := hlockstep (max bound bound')
    rw [(Stmt.persists_execEach (Nat.le_max_left bound bound') ss env).eq_of_ne hrun hends,
      (Stmt.persists_execEach (Nat.le_max_right bound bound') ss env').eq_of_ne hrun' hends']
      at hlarge
    refine ⟨?_, hlarge.endOf.2⟩
    cases hlarge with
    | ok hab hst => rw [mapState, mapState, hab, hst.1]
    | error he hst => rw [mapState, mapState, he, hst.1]

end

/-- In one environment `x` is global.  In the other one it is in the middle of three scopes, under
an empty one, and hides another `x`.  A block reads it and assigns to it, and what follows fails at
a name that neither has. -/
theorem visible_bindings_decide_hidden :
    let N : Set String := { x | x ∈ ["x", "y", "z"] }
    let m : Machine := { scopes := (Scopes.create {}).2.define (some 0) "x" .nil }
    let outer := (Scopes.create {}).2.define (some 0) "x" (.bool true)
    let inner := Scopes.define (outer.child (some 0)).2 (some 1) "x" .nil
    let m' : Machine := { scopes := (inner.child (some 1)).2 }
    let ss : List Stmt := [.block [.declare (.identifier "y" 1) (some (.name (.identifier "x" 1))),
      .expr (.assign (.identifier "x" 2) (.literal (.bool false))),
      .print (.name (.identifier "y" 3))], .print (.name (.identifier "z" 4))]
    let r := Stmt.execEach 1 ss (some 0) m
    let r' := Stmt.execEach 1 ss (some 2) m'
    Scopes.Agree N m.scopes (some 0) m'.scopes (some 2) ∧
      Stmt.EndsWith ss (some 0) m r ∧ Stmt.EndsWith ss (some 2) m' r' ∧
      mapState Machine.sink r = mapState Machine.sink r' ∧
      Scopes.Agree N (endOf r).scopes (some 0) (endOf r').scopes (some 2) := by
  intro N m outer inner m' ss r r'
  have hagree : Scopes.Agree N m.scopes (some 0) m'.scopes (some 2) := by
    show ∀ x ∈ ["x", "y", "z"], m.scopes.lookup? (some 0) x = m'.scopes.lookup? (some 2) x
    dsimp only [m', inner, outer, m]
    decide +kernel
  have hends : ∀ q ∈ [r, r'], ∀ m₁, q ≠ .error .exhausted m₁ := by
    have hstop : ∀ q ∈ [r, r'], (match q with
        | .error .exhausted _ => true
        | _ => false) = false := by
      dsimp only [r', r, ss, m', inner, outer, m]
      decide +kernel
    rintro q hq m₁ rfl
    exact nomatch hstop _ hq
  have hr : Stmt.EndsWith ss (some 0) m r := ⟨1, rfl, hends r (by simp)⟩
  have hr' : Stmt.EndsWith ss (some 2) m' r' := ⟨1, rfl, hends r' (by simp)⟩
  have h : Held m.scopes (some 0) := ⟨0, _, rfl, rfl, Nat.le_refl 1⟩
  have h' : Held m'.scopes (some 2) := ⟨2, _, rfl, rfl, Nat.le_refl 1⟩
  have hnames : ∀ t ∈ Stmt.namesOf ss, t.lexeme ∈ N := by
    show ∀ t ∈ Stmt.namesOf ss, t.lexeme ∈ ["x", "y", "z"]
    decide +kernel
  exact ⟨hagree, hr, hr', (visible_bindings_decide hnames h h' rfl hagree).2 r r' hr hr'⟩

end Lox
