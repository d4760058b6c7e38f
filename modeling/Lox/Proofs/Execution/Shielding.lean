import Lox.Proofs.Execution.Discipline
import Lox.Proofs.Stack.Correspondence

/-!
# A declaration shields the variables around it

A variable that a block declares hides every variable of that name around the block.  From its
declaration on, whatever the block assigns under that name stops at the block's own scope: no block,
loop or declaration within takes that scope away or the variable out of it.  So the outer variables
of that name are left as they were when the variable was declared, however the block ends.

* `Shields x outer depth`: under `depth` scopes there is one that has `x`, and below it the
  variables `x` are those in `outer`.
* `shielding x outer`: **a program keeps a shield,** as it keeps every correspondence.
* `declaration_shields_outer`: a block that starts with the declaration of a variable leaves every
  scope that was there before it with the variable of that name, or without one, as it was right
  after the initial value was evaluated.
-/

namespace Lox

open SharedList SharedList.Store Scopes

namespace Stack

/-! ### What the scopes say of one variable -/

/-- The values of a variable in the scopes of a stack, where they have it. -/
def bindings (x : String) (l : List Scope) : List (Option Value) := l.map fun scope => scope[x]?

@[simp]
theorem bindings_cons (x : String) (scope : Scope) (l : List Scope) :
    bindings x (scope :: l) = scope[x]? :: bindings x l := rfl

theorem bindings_assign? {x name : String} (hname : x ≠ name) {v : Value} {l l' : List Scope}
    (h : assign? name v l = some l') : bindings x l' = bindings x l := by
  induction l generalizing l' with
  | nil => cases h
  | cons scope l ih =>
    rw [assign?] at h
    split at h
    · cases h
      rw [bindings_cons, bindings_cons, Std.TreeMap.getElem?_insert, if_neg]
      exact fun hcompare => hname (Std.LawfulEqOrd.eq_of_compare hcompare).symm
    · obtain ⟨rest, hrest, rfl⟩ := Option.map_eq_some_iff.mp h
      rw [bindings_cons, bindings_cons, ih hrest]

/-! ### Shields -/

/-- Under `depth` scopes there is one that has the variable `x`.  The scopes below it have the
variable with the values `outer`. -/
inductive Shields (x : String) (outer : List (Option Value)) : Nat → List Scope → Prop
  | here {scope : Scope} {l : List Scope} (hx : x ∈ scope) (hl : bindings x l = outer) :
      Shields x outer 0 (scope :: l)
  | under {depth : Nat} (scope : Scope) {l : List Scope} (h : Shields x outer depth l) :
      Shields x outer (depth + 1) (scope :: l)

namespace Shields

variable {x : String} {outer : List (Option Value)} {depth : Nat} {l : List Scope}

theorem define (h : Shields x outer depth l) (name : String) (v : Value) :
    Shields x outer depth (Stack.define name v l) := by
  cases h with
  | here hx hl => exact .here (Std.TreeMap.mem_insert.mpr (.inr hx)) hl
  | under scope h => exact .under _ h

/-- **An assignment keeps a shield.**  One to `x` itself ends at the shield at the latest, and one
to another variable may go below it. -/
theorem assign? (h : Shields x outer depth l) {name : String} {v : Value} {l' : List Scope}
    (hassign : Stack.assign? name v l = some l') : Shields x outer depth l' := by
  induction h generalizing l' with
  | @here scope l hx hl =>
    rw [Stack.assign?] at hassign
    split at hassign
    · cases hassign
      exact .here (Std.TreeMap.mem_insert.mpr (.inr hx)) hl
    · next hname =>
      obtain ⟨rest, hrest, rfl⟩ := Option.map_eq_some_iff.mp hassign
      have hne : x ≠ name := by
        rintro rfl
        exact hname (Std.TreeMap.contains_iff_mem.mpr hx)
      exact .here hx ((bindings_assign? hne hrest).trans hl)
  | under scope h ih =>
    rw [Stack.assign?] at hassign
    split at hassign
    · cases hassign
      exact .under _ h
    · obtain ⟨rest, hrest, rfl⟩ := Option.map_eq_some_iff.mp hassign
      exact .under scope (ih hrest)

theorem bindings_tail (h : Shields x outer 0 l) : bindings x l.tail = outer := by
  cases h with
  | here _ hl => exact hl

end Shields

/-- A program next to itself, on a stack with a shield. -/
def shielding (x : String) (outer : List (Option Value)) : Correspondence :=
  { Correspondence.same with
    Scopes := fun depth l l' => l = l' ∧ Shields x outer depth l
    lookup := fun _ h => h.1 ▸ rfl
    assign := fun {_ l _ t} v _ h => by
      obtain ⟨rfl, h⟩ := h
      show Option.Rel _ (Stack.assign? t.lexeme v l) (Stack.assign? t.lexeme v l)
      cases hassign : Stack.assign? t.lexeme v l with
      | none => exact .none
      | some l' => exact .some ⟨rfl, h.assign? hassign⟩
    define := fun v _ h => ⟨congrArg _ h.1, h.2.define _ v⟩
    push := fun h => ⟨congrArg _ h.1, .under _ h.2⟩
    pop := fun h => by
      obtain ⟨rfl, h⟩ := h
      cases h with
      | under _ h => exact ⟨rfl, h⟩ }

/-- **Statements keep a shield,** however they end. -/
theorem shields_execEach {x : String} {outer : List (Option Value)} (bound : Nat) (ss : List Stmt)
    {st : Stack} (h : Shields x outer 0 st.scopes) :
    Shields x outer 0 (endOf (execEach bound ss st)).scopes := by
  have hrun := (shielding x outer).follows_execEach bound 0 ss (fun _ _ => trivial)
    (fun _ _ => trivial) (fun _ _ t v _ hl => ⟨congrArg _ hl.1, hl.2.define t.lexeme v⟩)
    st st ⟨⟨rfl, h⟩, rfl⟩
  exact hrun.endOf.1.2

/-! ### A block that starts with a declaration -/

theorem scopes_endOf_inBlock {α : Type} (x : Run α) (l : List Scope) (sink : Sink) :
    (endOf (inBlock x ⟨l, sink⟩)).scopes = (endOf (x ⟨{} :: l, sink⟩)).scopes.tail := by
  unfold inBlock
  dsimp only
  cases x ⟨{} :: l, sink⟩ with
  | ok a st => rfl
  | error e st => rfl

theorem shields_define (x : String) (v : Value) {l : List Scope} (hl : l ≠ []) :
    Shields x (bindings x l.tail) 0 (define x v l) := by
  cases l with
  | nil => exact absurd rfl hl
  | cons scope l => exact .here Std.TreeMap.mem_insert_self rfl

theorem endOf_eval_ne_nil (e : Expr) {l : List Scope} (hl : l ≠ []) : endOf (eval e l) ≠ [] := by
  have hkept := stays_kept_eval e l
  intro hnil
  rw [hnil] at hkept
  cases hkept
  exact hl rfl

/-- The scopes around a block right after the initial value of its first variable was evaluated. -/
def afterInitial : Option Expr → List Scope → List Scope
  | none, l => l
  | some e, l => (endOf (eval e ({} :: l))).tail

theorem bindings_exec_block (bound : Nat) (t : Token) (initial : Option Expr) (ss : List Stmt)
    (l : List Scope) (sink : Sink) :
    bindings t.lexeme (endOf (exec bound (.block (.declare t initial :: ss)) ⟨l, sink⟩)).scopes =
      bindings t.lexeme (afterInitial initial l) := by
  rw [exec, scopes_endOf_inBlock, execEach]
  cases initial with
  | none =>
    have hdeclare : exec bound (.declare t none) ⟨{} :: l, sink⟩ =
        .ok () ⟨define t.lexeme .nil ({} :: l), sink⟩ := by
      rw [exec]
      rfl
    rw [bind_of_ok _ hdeclare]
    have hshield := shields_define t.lexeme .nil (List.cons_ne_nil ({} : Scope) l)
    exact (shields_execEach bound ss hshield).bindings_tail
  | some e =>
    rw [afterInitial]
    have hne := endOf_eval_ne_nil e (List.cons_ne_nil ({} : Scope) l)
    cases hvalue : eval e ({} :: l) with
    | ok v l₁ =>
      rw [hvalue] at hne
      have hdeclare : exec bound (.declare t (some e)) ⟨{} :: l, sink⟩ =
          .ok () ⟨define t.lexeme v l₁, sink⟩ := by
        have heval : onScopes (eval e) ⟨{} :: l, sink⟩ = .ok v ⟨l₁, sink⟩ := by
          unfold onScopes
          simp only [hvalue]
        rw [exec, bind_of_ok _ heval]
        rfl
      rw [bind_of_ok _ hdeclare]
      exact (shields_execEach bound ss (shields_define t.lexeme v hne)).bindings_tail
    | error err l₁ =>
      -- The block ends before the variable is there, and right after the evaluation.
      have hdeclare : exec bound (.declare t (some e)) ⟨{} :: l, sink⟩ =
          .error (.fault err) ⟨l₁, sink⟩ := by
        rw [exec]
        refine bind_of_error _ ?_
        unfold onScopes
        simp only [hvalue]
      rw [bind_of_error _ hdeclare]
      rfl

end Stack

/-! ### Scopes in a store -/

namespace Scopes

/-- The scopes right after the initial value of the first variable of a block was evaluated, in the
block's own environment.  Without an initial value these are the scopes before the block. -/
def afterInitial (s : Scopes) (env : Environment) : Option Expr → Scopes
  | none => s
  | some e =>
    match s.child env with
    | (child, s) => endOf (e.eval child s)

theorem same_binding_of_mem {x : String} {s s' : Scopes} {as : List Nat}
    (hs : ∀ a ∈ as, ∃ c, s.cell? a = some c) (hs' : ∀ a ∈ as, ∃ c, s'.cell? a = some c)
    (h : Stack.bindings x (s.elems as) = Stack.bindings x (s'.elems as)) :
    ∀ a ∈ as, ∃ c c', s.cell? a = some c ∧ s'.cell? a = some c' ∧ c.elem[x]? = c'.elem[x]? := by
  induction as with
  | nil => exact nofun
  | cons b as ih =>
    rw [List.forall_mem_cons] at hs hs' ⊢
    obtain ⟨⟨c, hc⟩, hs⟩ := hs
    obtain ⟨⟨c', hc'⟩, hs'⟩ := hs'
    rw [elems_cons hc, elems_cons hc', Stack.bindings_cons, Stack.bindings_cons] at h
    obtain ⟨hhead, htail⟩ := List.cons.inj h
    exact ⟨⟨c, c', hc, hc', hhead⟩, ih hs hs' htail⟩

/-- The cells that were there before a block are there after the initial value was evaluated.  Those
of the environment have the scopes that the evaluation on the stack leaves, the others their own. -/
theorem afterInitial_spec {s : Scopes} {env : Environment} (h : Held s env)
    (initial : Option Expr) :
    (s.afterInitial env initial).elems (s.addresses env) =
        Stack.afterInitial initial (s.toList env) ∧
      ∀ a c, s.cell? a = some c → ∃ c₁, (s.afterInitial env initial).cell? a = some c₁ ∧
        (a ∉ s.addresses env → c₁.elem = c.elem) := by
  cases initial with
  | none => exact ⟨rfl, fun a c hc => ⟨c, hc, fun _ => rfl⟩⟩
  | some e =>
    obtain ⟨n, s₁, hs₁, hchild⟩ := exists_child h
    have hend := (Eval.simulates_eval e s₁ s₁ _ (.refl (some n) s₁)).endOf
    rw [afterInitial, hs₁]
    constructor
    · have hscopes := hend.scopes_eq
      obtain ⟨x, hx⟩ := hend.frame.exists_cell hchild.cell
      rw [toList_eq_elems, hend.frame.addresses, hchild.addresses, elems_cons hx,
        hchild.scopes] at hscopes
      rw [Stack.afterInitial, ← hscopes, List.tail_cons]
    · intro a c hc
      have hne : a ≠ n := by
        rintro rfl
        exact nomatch hc.symm.trans hchild.fresh
      obtain ⟨c₀, hc₀, helem⟩ : ∃ c₀, s₁.cell? a = some c₀ ∧ c₀.elem = c.elem := by
        rw [hchild.other a hne, cell?_retain, hc]
        split
        · exact ⟨_, rfl, rfl⟩
        · exact ⟨c, rfl, rfl⟩
      obtain ⟨x, hx⟩ := hend.frame.exists_cell hc₀
      refine ⟨_, hx, fun ha => ?_⟩
      have hsame := hend.frame.cell a (by simp [hchild.addresses, hne, ha])
      rw [hx, hc₀] at hsame
      rw [Option.some.inj hsame, helem]

end Scopes

/-- **A declaration shields the variables around its block.**  However a block that starts with the
declaration of a variable ends, every scope that was there before the block is there after it, and
has that variable, or does not have it, as it was right after the initial value was evaluated: as
before the block if there is no initial value. -/
theorem declaration_shields_outer (bound : Nat) (t : Token) (initial : Option Expr)
    (ss : List Stmt) {env : Environment} {m : Machine} (h : Held m.scopes env) :
    let last := (endOf ((Stmt.block (.declare t initial :: ss)).exec bound env m)).scopes
    ∀ a c, m.scopes.cell? a = some c → ∃ c₁ c',
      (m.scopes.afterInitial env initial).cell? a = some c₁ ∧ last.cell? a = some c' ∧
        c'.elem[t.lexeme]? = c₁.elem[t.lexeme]? := by
  intro last a c hc
  have hsimulates := (Stmt.block (.declare t initial :: ss)).simulates_exec bound env
  have hframe : Frame (m.scopes.addresses env) m.scopes last := hsimulates.frame h
  obtain ⟨hafter, hcells⟩ := afterInitial_spec h initial
  by_cases ha : a ∈ m.scopes.addresses env
  · have hbindings : Stack.bindings t.lexeme
          ((m.scopes.afterInitial env initial).elems (m.scopes.addresses env)) =
        Stack.bindings t.lexeme (last.elems (m.scopes.addresses env)) := by
      rw [hafter, ← hframe.addresses env, ← toList_eq_elems, hsimulates.toList_endOf h]
      exact (Stack.bindings_exec_block bound t initial ss _ _).symm
    have hthere : ∀ b ∈ m.scopes.addresses env,
        (∃ c, (m.scopes.afterInitial env initial).cell? b = some c) ∧
          ∃ c, last.cell? b = some c := by
      intro b hb
      obtain ⟨d, hd⟩ := m.scopes.exists_cell_of_mem_addresses env b hb
      obtain ⟨d₁, hd₁, -⟩ := hcells b d hd
      obtain ⟨x, hx⟩ := hframe.exists_cell hd
      exact ⟨⟨d₁, hd₁⟩, _, hx⟩
    obtain ⟨c₁, c', hc₁, hc', hsame⟩ := same_binding_of_mem (fun b hb => (hthere b hb).1)
      (fun b hb => (hthere b hb).2) hbindings a ha
    exact ⟨c₁, c', hc₁, hc', hsame.symm⟩
  · -- A scope outside of the environment is not touched at all.
    obtain ⟨c₁, hc₁, helem⟩ := hcells a c hc
    exact ⟨c₁, c, hc₁, (hframe.cell a ha).trans hc, by rw [helem ha]⟩

/-- The initial value of `x` assigns to the global `x`.  What the block then assigns to `x`, in
itself, in a block within and in a loop, does not reach the global, and neither does the second
declaration; the run ends with a fault in the loop. -/
theorem declaration_shields_outer_fault :
    let x : Token := .identifier "x" 1
    let set (v : Value) : Stmt := .expr (.assign x (.literal v))
    let ss : List Stmt := [set .nil, .block [set .nil, .declare x none, set (.bool false)],
      .declare x none, .loop (.literal (.bool true)) (.block [set (.bool false),
        .print (.name (.identifier "y" 2))])]
    let globals := (Scopes.create {}).2.define (some 0) "x" .nil
    let m : Machine := { scopes := (globals.child (some 0)).2 }
    let r := (Stmt.block (.declare x (some (.assign x (.literal (.bool true)))) :: ss)).exec 3
      (some 1) m
    (∃ e m', r = .error (.fault e) m') ∧ Held m.scopes (some 1) ∧
      ∃ c c', m.scopes.cell? 0 = some c ∧ c.elem["x"]? = some .nil ∧
        (endOf r).scopes.cell? 0 = some c' ∧ c'.elem["x"]? = some (.bool true) := by
  intro x set ss globals m r
  have hfault : ∃ e m', r = .error (.fault e) m' := by
    have hstop : (match r with
        | .error (.fault _) _ => true
        | _ => false) = true := by
      dsimp only [r, m, globals, ss, set, x]
      decide +kernel
    generalize r = q at hstop ⊢
    match q, hstop with
    | .error (.fault e) m', _ => exact ⟨e, m', rfl⟩
  have h : Held m.scopes (some 1) := ⟨1, _, rfl, rfl, Nat.le_refl 1⟩
  obtain ⟨c₁, c', hc₁, hc', hsame⟩ := declaration_shields_outer 3 x
    (some (.assign x (.literal (.bool true)))) ss h 0 ⟨({} : Scope).insert "x" .nil, none, 2⟩ rfl
  have hafter : ((m.scopes.afterInitial (some 1)
      (some (.assign x (.literal (.bool true))))).cell? 0).bind (fun c => c.elem["x"]?) =
        some (.bool true) := by
    dsimp only [m, globals, x]
    decide +kernel
  rw [hc₁] at hafter
  exact ⟨hfault, h, _, c', rfl, by decide +kernel, hc', hsame.trans hafter⟩

end Lox
