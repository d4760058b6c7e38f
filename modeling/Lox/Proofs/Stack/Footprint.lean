import Lox.Proofs.Lockstep
import Lox.Proofs.Stack
import Mathlib.Data.List.Forall2
import Std.Data.TreeMap.Lemmas

/-!
# The footprint of a statement

What a statement can change is seen from its tree: the names it declares outside of its blocks, and
the names it assigns to anywhere.  `Kept declared targets` relates two stacks of scopes when the
first can become the second within such a footprint.  No scope loses a name; only the innermost one
gains any, and only declared ones; and a variable has another value only if its name is a target or,
in the innermost scope, a declared one.

Executing a statement keeps to its footprint, however it ends (`keeps_exec`).
-/

namespace Lox

/-! ### The names that a tree declares and assigns to -/

/-- The names that an expression assigns to. -/
def Expr.targets : Expr → List String
  | .literal _ => []
  | .grouping e => e.targets
  | .name _ => []
  | .assign t e => t.lexeme :: e.targets
  | .unary _ e => e.targets
  | .binary l _ r => l.targets ++ r.targets
  | .logical l _ r => l.targets ++ r.targets

mutual

/-- The names that a statement assigns to, in its blocks as well. -/
def Stmt.targets : Stmt → List String
  | .block body => Stmt.targetsOf body
  | .expr e => e.targets
  | .print e => e.targets
  | .declare _ none => []
  | .declare _ (some e) => e.targets
  | .ifThen c yes => c.targets ++ yes.targets
  | .ifElse c yes no => c.targets ++ (yes.targets ++ no.targets)
  | .loop c body => c.targets ++ body.targets

/-- The names that statements assign to. -/
def Stmt.targetsOf : List Stmt → List String
  | [] => []
  | s :: ss => s.targets ++ Stmt.targetsOf ss

end

/-- The names that a statement declares outside of its blocks. -/
def Stmt.declared : Stmt → List String
  | .block _ => []
  | .expr _ => []
  | .print _ => []
  | .declare t _ => [t.lexeme]
  | .ifThen _ yes => yes.declared
  | .ifElse _ yes no => yes.declared ++ no.declared
  | .loop _ body => body.declared

/-- The names that statements declare outside of their blocks. -/
def Stmt.declaredOf (ss : List Stmt) : List String := ss.flatMap Stmt.declared

namespace Stack

/-! ### Scopes within a footprint -/

/-- The scope has lost no name, has gained declared names only, and only variables with a declared
name or a target have another value. -/
structure ScopeKept (declared targets : List String) (scope scope' : Scope) : Prop where
  lost : ∀ name, name ∈ scope → name ∈ scope'
  gained : ∀ name, name ∈ scope' → name ∈ scope ∨ name ∈ declared
  value : ∀ name, name ∈ scope → name ∉ declared → name ∉ targets → scope'[name]? = scope[name]?

/-- The innermost scope is kept but for declared names and targets, and every other scope but for
targets: it has the very names it had. -/
inductive Kept (declared targets : List String) : List Scope → List Scope → Prop
  | nil : Kept declared targets [] []
  | cons {scope scope' : Scope} {scopes scopes' : List Scope}
      (inner : ScopeKept declared targets scope scope')
      (outer : List.Forall₂ (ScopeKept [] targets) scopes scopes') :
      Kept declared targets (scope :: scopes) (scope' :: scopes')

variable {declared declared' targets targets' : List String}

namespace ScopeKept

theorem refl (declared targets : List String) (scope : Scope) :
    ScopeKept declared targets scope scope :=
  ⟨fun _ => id, fun _ => .inl, fun _ _ _ _ => rfl⟩

theorem trans {s s' s'' : Scope} (h : ScopeKept declared targets s s')
    (h' : ScopeKept declared targets s' s'') : ScopeKept declared targets s s'' where
  lost name hs := h'.lost name (h.lost name hs)
  gained name hs := by
    obtain hs' | hd := h'.gained name hs
    · exact h.gained name hs'
    · exact .inr hd
  value name hs hd ht := (h'.value name (h.lost name hs) hd ht).trans (h.value name hs hd ht)

theorem mono {s s' : Scope} (h : ScopeKept declared targets s s') (hd : declared ⊆ declared')
    (ht : targets ⊆ targets') : ScopeKept declared' targets' s s' where
  lost := h.lost
  gained name hs := (h.gained name hs).imp_right (@hd name)
  value name hs hnd hnt := h.value name hs (fun hm => hnd (hd hm)) fun hm => hnt (ht hm)

end ScopeKept

namespace Kept

variable {l l' l'' : List Scope}

theorem outer_refl (targets : List String) (scopes : List Scope) :
    List.Forall₂ (ScopeKept [] targets) scopes scopes :=
  List.forall₂_same.mpr fun scope _ => .refl _ _ scope

theorem outer_trans {scopes scopes' scopes'' : List Scope}
    (h : List.Forall₂ (ScopeKept [] targets) scopes scopes')
    (h' : List.Forall₂ (ScopeKept [] targets) scopes' scopes'') :
    List.Forall₂ (ScopeKept [] targets) scopes scopes'' := by
  induction h generalizing scopes'' with
  | nil => exact h'
  | cons hs _ ih =>
    cases h' with
    | cons hs' h' => exact .cons (hs.trans hs') (ih h')

theorem refl (declared targets : List String) (l : List Scope) : Kept declared targets l l := by
  cases l with
  | nil => exact .nil
  | cons scope scopes => exact .cons (.refl _ _ scope) (outer_refl targets scopes)

theorem trans (h : Kept declared targets l l') (h' : Kept declared targets l' l'') :
    Kept declared targets l l'' := by
  cases h with
  | nil => exact h'
  | cons inner outer =>
    cases h' with
    | cons inner' outer' => exact .cons (inner.trans inner') (outer_trans outer outer')

theorem mono (h : Kept declared targets l l') (hd : declared ⊆ declared')
    (ht : targets ⊆ targets') : Kept declared' targets' l l' := by
  cases h with
  | nil => exact .nil
  | cons inner outer =>
    exact .cons (inner.mono hd ht) (outer.imp fun _ _ hs => hs.mono (List.Subset.refl _) ht)

/-- **Without its innermost scope a stack is kept but for targets.** -/
theorem tail {scope : Scope} (h : Kept declared targets (scope :: l) l') :
    Kept [] targets l l'.tail := by
  cases h with
  | cons inner outer =>
    cases outer with
    | nil => exact .nil
    | cons inner' outer' => exact .cons inner' outer'

end Kept

/-! ### Variables -/

/-- A scope gets a value for a declared name, or another value for a target that it has. -/
theorem scopeKept_insert {scope : Scope} {name : String}
    (h : name ∈ declared ∨ name ∈ scope ∧ name ∈ targets) (v : Value) :
    ScopeKept declared targets scope (scope.insert name v) where
  lost x hx := Std.TreeMap.mem_insert.mpr (.inr hx)
  gained x hx := by
    obtain hx | hx := Std.TreeMap.mem_insert.mp hx
    · rw [← Std.LawfulEqOrd.eq_of_compare hx]
      exact h.elim .inr fun h => .inl h.1
    · exact .inl hx
  value x _ hd ht := by
    rw [Std.TreeMap.getElem?_insert, if_neg]
    intro hx
    rw [← Std.LawfulEqOrd.eq_of_compare hx] at hd ht
    exact h.elim hd fun h => ht h.2

theorem kept_define (name : String) (v : Value) (l : List Scope) :
    Kept [name] [] l (define name v l) := by
  cases l with
  | nil => exact .nil
  | cons scope scopes => exact .cons (scopeKept_insert (.inl List.mem_cons_self) v) (Kept.outer_refl [] scopes)

theorem kept_assign? {name : String} {v : Value} {l l' : List Scope}
    (h : assign? name v l = some l') : Kept [] [name] l l' := by
  induction l generalizing l' with
  | nil => cases h
  | cons scope scopes ih =>
    rw [assign?] at h
    split at h
    · next hname =>
      cases h
      exact .cons (scopeKept_insert (.inr ⟨hname, List.mem_cons_self⟩) v) (Kept.outer_refl _ scopes)
    · obtain ⟨rest, hrest, rfl⟩ := Option.map_eq_some_iff.mp h
      refine .cons (.refl _ _ scope) ?_
      cases ih hrest with
      | nil => exact .nil
      | cons inner outer => exact .cons inner outer

/-! ### Expressions -/

section

variable {α β : Type}

theorem stays_kept_ofExcept (r : Except RuntimeError α) (targets : List String) :
    Stays (Kept [] targets) (ofExcept r) := by
  intro l
  cases r with
  | ok a => exact .refl _ _ l
  | error e => exact .refl _ _ l

theorem stays_kept_lookup (t : Token) (targets : List String) :
    Stays (Kept [] targets) (lookup t) := by
  intro l
  unfold lookup
  split
  · exact .refl _ _ l
  · exact .refl _ _ l

theorem stays_kept_assign (t : Token) (v : Value) :
    Stays (Kept [] [t.lexeme]) (assign t v) := by
  intro l
  unfold assign
  split
  · next l' h => exact kept_assign? h
  · exact .refl _ _ l

theorem stays_kept_mono {x : Eval α} (h : Stays (Kept [] targets) x) (ht : targets ⊆ targets') :
    Stays (Kept [] targets') x :=
  fun l => (h l).mono (List.Subset.refl _) ht

/-- **An expression keeps the stack but for what it assigns to.** -/
theorem stays_kept_eval (e : Expr) : Stays (Kept [] e.targets) (eval e) := by
  induction e with
  | literal v => exact fun l => .refl _ _ l
  | grouping e ih => exact ih
  | name t => exact stays_kept_lookup t _
  | assign t e ih =>
    refine (stays_kept_mono ih (List.subset_cons_self _ _)).bind Kept.trans fun v => ?_
    refine (stays_kept_mono (stays_kept_assign t v) ?_).bind Kept.trans fun _ l => .refl _ _ l
    exact List.cons_subset_cons _ (List.nil_subset _)
  | unary op e ih => exact ih.bind Kept.trans fun v => stays_kept_ofExcept _ _
  | binary l op r ihl ihr =>
    refine (stays_kept_mono ihl (List.subset_append_left _ _)).bind Kept.trans fun x => ?_
    refine (stays_kept_mono ihr (List.subset_append_right _ _)).bind Kept.trans fun y => ?_
    exact stays_kept_ofExcept _ _
  | logical l op r ihl ihr =>
    refine (stays_kept_mono ihl (List.subset_append_left _ _)).bind Kept.trans fun v => ?_
    refine (stays_kept_ofExcept _ _).bind Kept.trans fun decided => ?_
    cases decided with
    | true => exact fun l => .refl _ _ l
    | false => exact stays_kept_mono ihr (List.subset_append_right _ _)

/-! ### Statements -/

/-- However the computation ends, the stack is kept but for the footprint. -/
def Keeps (declared targets : List String) (x : Run α) : Prop :=
  Stays (fun t t' => Kept declared targets t.scopes t'.scopes) x

namespace Keeps

theorem mono {x : Run α} (h : Keeps declared targets x) (hd : declared ⊆ declared')
    (ht : targets ⊆ targets') : Keeps declared' targets' x :=
  fun t => (h t).mono hd ht

theorem pure (a : α) : Keeps declared targets (Pure.pure a : Run α) := fun _ => .refl _ _ _

theorem bind {x : Run α} {f : α → Run β} (hx : Keeps declared targets x)
    (hf : ∀ a, Keeps declared targets (f a)) : Keeps declared targets (x >>= f) :=
  Stays.bind hx Kept.trans hf

end Keeps

theorem keeps_onScopes {x : Eval α} (h : Stays (Kept [] targets) x) :
    Keeps declared targets (onScopes x) := by
  rintro ⟨scopes, sink⟩
  have hs := h scopes
  unfold onScopes
  dsimp only
  cases hx : x scopes with
  | ok a scopes' =>
    rw [hx] at hs
    exact hs.mono (List.nil_subset _) (List.Subset.refl _)
  | error e scopes' =>
    rw [hx] at hs
    exact hs.mono (List.nil_subset _) (List.Subset.refl _)

theorem keeps_onSink (x : EStateM SinkFault Sink α) : Keeps declared targets (onSink x) := by
  rintro ⟨scopes, sink⟩
  unfold onSink
  dsimp only
  cases x sink with
  | ok a sink' => exact .refl _ _ _
  | error f sink' => exact .refl _ _ _

theorem keeps_define (name : String) (v : Value) :
    Keeps [name] targets (changeScopes (define name v)) :=
  fun t => (kept_define name v t.scopes).mono (List.Subset.refl _) (List.nil_subset _)

/-- **A block declares nothing outside.** -/
theorem keeps_inBlock {x : Run α} (h : Keeps declared targets x) : Keeps [] targets (inBlock x) := by
  rintro ⟨scopes, sink⟩
  have hx := h ⟨{} :: scopes, sink⟩
  unfold inBlock
  dsimp only
  cases hr : x ⟨{} :: scopes, sink⟩ with
  | ok a t =>
    rw [hr] at hx
    exact hx.tail
  | error e t =>
    rw [hr] at hx
    exact hx.tail

/-- However often a loop goes round, it keeps to the footprint of one round. -/
theorem keeps_whileTrue {condition : Run Value} {body : Run Unit}
    (hcondition : Keeps declared targets condition) (hbody : Keeps declared targets body)
    (bound : Nat) : Keeps declared targets (whileTrue condition body bound) := by
  induction bound with
  | zero => exact fun _ => .refl _ _ _
  | succ bound ih =>
    refine hcondition.bind fun v => ?_
    cases v.isTruthy with
    | true => exact hbody.bind fun _ => ih
    | false => exact .pure ()

end

theorem keeps_eval (e : Expr) (he : e.targets ⊆ targets) :
    Keeps declared targets (onScopes (eval e)) :=
  keeps_onScopes (stays_kept_mono (stays_kept_eval e) he)

mutual

/-- **A statement keeps to its footprint.** -/
theorem keeps_exec (bound : Nat) (s : Stmt) : Keeps s.declared s.targets (exec bound s) := by
  cases s with
  | block body =>
    rw [exec, Stmt.targets, Stmt.declared]
    exact keeps_inBlock (keeps_execEach bound body)
  | expr e =>
    rw [exec, Stmt.targets]
    exact (keeps_eval e (List.Subset.refl _)).bind fun _ => .pure ()
  | print e =>
    rw [exec, Stmt.targets]
    exact (keeps_eval e (List.Subset.refl _)).bind fun v => keeps_onSink _
  | declare t initial =>
    cases initial with
    | none =>
      rw [exec, Stmt.targets, Stmt.declared]
      exact keeps_define _ _
    | some e =>
      rw [exec, Stmt.targets, Stmt.declared]
      exact (keeps_eval e (List.Subset.refl _)).bind fun v => keeps_define _ _
  | ifThen c yes =>
    rw [exec, Stmt.targets, Stmt.declared]
    refine (keeps_eval c (List.subset_append_left _ _)).bind fun v => ?_
    cases v.isTruthy with
    | true => exact (keeps_exec bound yes).mono (List.Subset.refl _) (List.subset_append_right _ _)
    | false => exact .pure ()
  | ifElse c yes no =>
    rw [exec, Stmt.targets, Stmt.declared]
    refine (keeps_eval c (List.subset_append_left _ _)).bind fun v => ?_
    cases v.isTruthy with
    | true =>
      exact (keeps_exec bound yes).mono (List.subset_append_left _ _)
        (List.Subset.trans (List.subset_append_left _ _) (List.subset_append_right _ _))
    | false =>
      exact (keeps_exec bound no).mono (List.subset_append_right _ _)
        (List.Subset.trans (List.subset_append_right _ _) (List.subset_append_right _ _))
  | loop c body =>
    rw [exec, Stmt.targets, Stmt.declared]
    exact keeps_whileTrue (keeps_eval c (List.subset_append_left _ _))
      ((keeps_exec bound body).mono (List.Subset.refl _) (List.subset_append_right _ _)) bound

theorem keeps_execEach (bound : Nat) (ss : List Stmt) :
    Keeps (Stmt.declaredOf ss) (Stmt.targetsOf ss) (execEach bound ss) := by
  cases ss with
  | nil =>
    rw [execEach]
    exact .pure ()
  | cons s ss =>
    rw [execEach, Stmt.targetsOf, Stmt.declaredOf, List.flatMap_cons]
    refine ((keeps_exec bound s).mono (List.subset_append_left _ _)
      (List.subset_append_left _ _)).bind fun _ => ?_
    exact (keeps_execEach bound ss).mono (List.subset_append_right _ _)
      (List.subset_append_right _ _)

end

end Stack

end Lox
