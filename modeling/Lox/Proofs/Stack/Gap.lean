import Lox.Proofs.Stack.Correspondence
import Std.Data.TreeMap.Lemmas

/-!
# An empty scope makes no difference

Two stacks that are the same but for one more empty scope in the second.  Neither reading a variable
nor assigning to one can tell them apart, and neither can a declaration as long as the empty scope
is not on top.  So a run on the one goes in lockstep with the run on the other, and a block around
something that declares nothing itself can be left out (`inBlock_eq_self`).
-/

namespace Lox

namespace Stack

/-- The second stack has an empty scope under `depth` others, and is the first one without it. -/
inductive Gap : Nat → List Scope → List Scope → Prop
  | here (scopes : List Scope) : Gap 0 scopes ({} :: scopes)
  | under {depth : Nat} {l l' : List Scope} (scope : Scope) (h : Gap depth l l') :
      Gap (depth + 1) (scope :: l) (scope :: l')

namespace Gap

variable {depth : Nat} {l l' : List Scope}

theorem findSome?_eq (h : Gap depth l l') (name : String) :
    (l.findSome? fun scope => scope[name]?) = l'.findSome? fun scope => scope[name]? := by
  induction h with
  | here scopes => simp
  | under scope h ih => rw [List.findSome?_cons, List.findSome?_cons, ih]

theorem assign? (h : Gap depth l l') (name : String) (v : Value) :
    Option.Rel (Gap depth) (Stack.assign? name v l) (Stack.assign? name v l') := by
  induction h with
  | here scopes =>
    rw [Stack.assign?, if_neg (by simp)]
    cases Stack.assign? name v scopes with
    | none => exact .none
    | some scopes => exact .some (.here scopes)
  | @under depth l l' scope h ih =>
    rw [Stack.assign?, Stack.assign?]
    by_cases hname : scope.contains name
    · rw [if_pos hname, if_pos hname]
      exact .some (.under _ h)
    · rw [if_neg hname, if_neg hname]
      match Stack.assign? name v l, Stack.assign? name v l', ih with
      | _, _, .none => exact .none
      | _, _, .some h => exact .some (.under _ h)

theorem define (h : Gap (depth + 1) l l') (name : String) (v : Value) :
    Gap (depth + 1) (Stack.define name v l) (Stack.define name v l') := by
  cases h with
  | under scope h => exact .under _ h

end Gap

/-- Stacks with and without an empty scope, for one and the same program. -/
def gap : Correspondence :=
  { Correspondence.same with
    Scopes := Gap
    lookup := fun _ h => h.findSome?_eq _
    assign := fun v _ h => h.assign? _ v
    define := fun v _ h => h.define _ v
    push := fun h => .under _ h
    pop := fun h => by
      cases h with
      | under scope h => exact h }

theorem gap_follows_exec (bound : Nat) {s : Stmt} (hs : s.Undeclaring) :
    gap.Follows 0 (exec bound s) (exec bound s) := by
  have h := gap.follows_exec bound 0 s (fun _ _ => trivial) (fun _ _ => trivial) (.inr hs)
  rwa [show s.relabel gap.label = s from s.relabel_id] at h

theorem gap_stacks {t t' : Stack} (h : gap.Stacks 0 t t') : t' = ⟨{} :: t.scopes, t.sink⟩ := by
  obtain ⟨l, sink⟩ := t
  obtain ⟨l', sink'⟩ := t'
  obtain ⟨hl, hsink⟩ := h
  obtain rfl : sink = sink' := hsink
  cases hl with
  | here => rfl

/-- **A block around what can not tell an empty scope can be left out.** -/
theorem inBlock_eq_self {α : Type} {x : Run α} (h : gap.Follows 0 x x) : inBlock x = x := by
  funext ⟨scopes, sink⟩
  have hend := h ⟨scopes, sink⟩ ⟨{} :: scopes, sink⟩ ⟨.here scopes, rfl⟩
  unfold inBlock
  simp only
  generalize x ⟨scopes, sink⟩ = r at hend ⊢
  generalize x ⟨{} :: scopes, sink⟩ = r' at hend ⊢
  cases hend with
  | @ok a b t t' hab ht =>
    rw [gap_stacks ht, hab]
    rfl
  | @error e e' t t' he ht =>
    rw [gap_stacks ht, he.eq fun _ _ => id]
    rfl

end Stack

end Lox
