import Lox.Environment
import Lox.Proofs.SharedList.Frame
import Lox.Proofs.Stack

/-!
# Shared scopes and a stack of scopes

An environment is *held* when it has a first scope and that scope counts a holder, as every
environment does that somebody still uses.  A store *mirrors* a stack in an environment when the
scopes of the environment are the stack, and nothing else has changed since an earlier store: same
cells, same links, same counts, and the same elements outside the environment.

Defining, assigning and looking up keep the mirror.  So does a block: its child has one more scope,
and letting go of the child clears that scope away and gives the parent the count back that it had.
-/

namespace Lox

open SharedList SharedList.Store

namespace Scopes

/-- The environment has a first scope, which counts a holder. -/
def Held (s : Scopes) (env : Environment) : Prop :=
  ∃ a c, env = some a ∧ s.cell? a = some c ∧ 1 ≤ c.holders

/-- In the environment the store has the scopes of the stack, and otherwise it is as it was. -/
structure Mirrors (env : Environment) (s₀ s : Scopes) (scopes : List Scope) : Prop where
  scopes_eq : s.toList env = scopes
  frame : Frame (s₀.addresses env) s₀ s

/-! ### Held environments -/

theorem Held.frame {s s' : Scopes} {env : Environment} {as : List Nat} (h : Held s env)
    (hf : Frame as s s') : Held s' env := by
  obtain ⟨a, c, rfl, hc, hpos⟩ := h
  obtain ⟨x, hx⟩ := hf.exists_cell hc
  exact ⟨a, _, rfl, hx, hpos⟩

theorem Held.exists_mem {s : Scopes} {env : Environment} (h : Held s env) :
    ∃ a c, env = some a ∧ s.cell? a = some c ∧ a ∈ s.addresses env := by
  obtain ⟨a, c, rfl, hc, _⟩ := h
  exact ⟨a, c, rfl, hc, by rw [addresses_some s hc]; exact List.mem_cons_self ..⟩

theorem Mirrors.refl (env : Environment) (s : Scopes) : Mirrors env s s (s.toList env) :=
  ⟨rfl, .refl _ s⟩

theorem Mirrors.trans {env : Environment} {s₀ s₁ s₂ : Scopes} {l₁ l₂ : List Scope}
    (h₁ : Mirrors env s₀ s₁ l₁) (h₂ : Mirrors env s₁ s₂ l₂) : Mirrors env s₀ s₂ l₂ := by
  have hf := h₂.frame
  rw [h₁.frame.addresses env] at hf
  exact ⟨h₂.scopes_eq, h₁.frame.trans hf⟩

/-! ### Variables -/

theorem lookup?_eq (s : Scopes) (env : Environment) (name : String) :
    s.lookup? env name = (s.toList env).findSome? fun scope => scope[name]? := rfl

theorem mirrors_define {s : Scopes} {env : Environment} (h : Held s env) (name : String)
    (v : Value) : Mirrors env s (s.define env name v) (Stack.define name v (s.toList env)) := by
  obtain ⟨a, c, rfl, hc, hmem⟩ := h.exists_mem
  have hf : Frame (s.addresses (some a)) s (s.define (some a) name v) :=
    frame_modify s hmem fun scope => scope.insert name v
  refine ⟨?_, hf⟩
  have hc' : (s.define (some a) name v).cell? a = some { c with elem := c.elem.insert name v } := by
    rw [define, cell?_modify, if_pos rfl, hc]
    rfl
  have hrest : (s.define (some a) name v).elems (s.addresses (older a c)) =
      s.elems (s.addresses (older a c)) :=
    s.elems_modify_of_not_mem (s.not_mem_addresses_older a c) _
  rw [toList_eq_elems, hf.addresses, addresses_some s hc, elems_cons hc', hrest, toList_some hc]
  rfl

/-- **Assigning along addresses is assigning in the stack of their scopes.** -/
theorem updateAt_rebind (name : String) (v : Value) (as : List Nat) :
    ∀ s : Scopes, as.Nodup → ∃ s', Frame as s s' ∧
      ((∃ l, Stack.assign? name v (s.elems as) = some l ∧
          updateAt (rebind name v) as s = (some (), s') ∧ s'.elems as = l) ∨
        (Stack.assign? name v (s.elems as) = none ∧
          updateAt (rebind name v) as s = (none, s') ∧ s'.elems as = s.elems as)) := by
  induction as with
  | nil => exact fun s _ => ⟨s, .refl _ s, .inr ⟨rfl, rfl, rfl⟩⟩
  | cons a as ih =>
    intro s hnodup
    obtain ⟨ha, hnodup⟩ := List.nodup_cons.mp hnodup
    cases hc : s.cell? a with
    | none =>
      obtain ⟨s', hf, hcase⟩ := ih s hnodup
      have hc' := hf.cell?_eq_none hc
      refine ⟨s', hf.weaken fun b hb => List.mem_cons_of_mem _ hb, ?_⟩
      rw [elems_cons_none hc, elems_cons_none hc', updateAt, hc]
      exact hcase
    | some c =>
      -- The cell that is visited gets a new element, which may be the old one.
      have hset : ∀ x, Frame (a :: as) s (s.modify a fun c => { c with elem := x }) ∧
          (s.modify a fun c => { c with elem := x }).cell? a = some { c with elem := x } ∧
          (s.modify a fun c => { c with elem := x }).elems as = s.elems as := by
        intro x
        refine ⟨frame_modify s (List.mem_cons_self ..) fun _ => x, ?_,
          s.elems_modify_of_not_mem ha _⟩
        rw [cell?_modify, if_pos rfl, hc]
        rfl
      rw [elems_cons hc, Stack.assign?]
      by_cases hcont : c.elem.contains name
      · obtain ⟨hf, hc', hrest⟩ := hset (c.elem.insert name v)
        refine ⟨_, hf, .inl ⟨_, if_pos hcont, ?_, by rw [elems_cons hc', hrest]⟩⟩
        simp only [updateAt, hc, rebind, if_pos hcont]
      · obtain ⟨hf, hc', hrest⟩ := hset c.elem
        have hup : updateAt (rebind name v) (a :: as) s =
            updateAt (rebind name v) as (s.modify a fun c' => { c' with elem := c.elem }) := by
          simp only [updateAt, hc, rebind, if_neg hcont]
        obtain ⟨s', hf', hcase⟩ := ih (s.modify a fun c' => { c' with elem := c.elem }) hnodup
        have ha' : s'.cell? a = some c := (hf'.cell a ha).trans hc'
        refine ⟨s', hf.trans (hf'.weaken fun b hb => List.mem_cons_of_mem _ hb), ?_⟩
        rw [if_neg hcont, hup, elems_cons ha', ← hrest]
        rcases hcase with ⟨l, hl, heq, helems⟩ | ⟨hl, heq, helems⟩
        · exact .inl ⟨c.elem :: l, by rw [hl]; rfl, heq, by rw [helems]⟩
        · exact .inr ⟨by rw [hl]; rfl, heq, by rw [helems]⟩

theorem mirrors_assign (s : Scopes) (env : Environment) (name : String) (v : Value) :
    ∃ s', (∃ l, Stack.assign? name v (s.toList env) = some l ∧ s.assign env name v = (true, s') ∧
        Mirrors env s s' l) ∨
      (Stack.assign? name v (s.toList env) = none ∧ s.assign env name v = (false, s') ∧
        Mirrors env s s' (s.toList env)) := by
  obtain ⟨s', hf, hcase⟩ := updateAt_rebind name v (s.addresses env) s (s.nodup_addresses env)
  have hlist : s'.toList env = s'.elems (s.addresses env) := by
    rw [toList_eq_elems, hf.addresses]
  refine ⟨s', ?_⟩
  rcases hcase with ⟨l, hl, heq, helems⟩ | ⟨hl, heq, helems⟩
  · exact .inl ⟨l, hl, by rw [assign, update, heq]; rfl, hlist.trans helems, hf⟩
  · exact .inr ⟨hl, by rw [assign, update, heq]; rfl, hlist.trans helems, hf⟩

/-! ### One more holder for a while -/

theorem Held.retain {s : Scopes} {env : Environment} (h : Held s env) :
    Held (s.retain env) env := by
  obtain ⟨a, c, rfl, hc, hpos⟩ := h
  refine ⟨a, { c with holders := c.holders + 1 }, rfl, ?_, Nat.le_succ_of_le hpos⟩
  rw [cell?_retain, if_pos rfl, hc]
  rfl

/-- **Letting go of the additional holder** leaves the rest of the store as it was before. -/
theorem mirrors_retain_release {s s₂ : Scopes} {env : Environment} {l : List Scope}
    (h : Held s env) (hm : Mirrors env (s.retain env) s₂ l) : Mirrors env s (s₂.release env) l := by
  obtain ⟨a, c, rfl, hc, hpos⟩ := h
  have hmem : a ∈ s.addresses (some a) := by
    rw [addresses_some s hc]
    exact List.mem_cons_self ..
  have haddr := (s.toList_retain (some a) (some a)).1
  have hca : (s.retain (some a)).cell? a = some { c with holders := c.holders + 1 } := by
    rw [cell?_retain, if_pos rfl, hc]
    rfl
  obtain ⟨y, hy⟩ := hm.frame.exists_cell hca
  have hrel : s₂.release (some a) = s₂.modify a fun c => { c with holders := c.holders - 1 } := by
    rw [release]
    simp only [hy, if_neg (Nat.not_le_of_lt (Nat.lt_succ_of_le hpos))]
  have hother : ∀ b, b ≠ a → (s₂.release (some a)).cell? b = s₂.cell? b ∧
      (s.retain (some a)).cell? b = s.cell? b := by
    intro b hba
    rw [hrel, cell?_modify, if_neg hba, cell?_retain,
      if_neg (fun h => hba (Option.some.inj h).symm)]
    exact ⟨rfl, rfl⟩
  have hthis : (s₂.release (some a)).cell? a = some ⟨y, c.next, c.holders⟩ := by
    rw [hrel, cell?_modify, if_pos rfl, hy]
    rfl
  have hf : Frame (s.addresses (some a)) s (s₂.release (some a)) := by
    constructor
    · intro b
      by_cases hba : b = a
      · rw [hba, hthis, hc]
        rfl
      · rw [(hother b hba).1, hm.frame.shape b, (hother b hba).2]
    · intro b hb
      have hba : b ≠ a := by
        rintro rfl
        exact hb hmem
      rw [(hother b hba).1, hm.frame.cell b (by rwa [haddr]), (hother b hba).2]
  refine ⟨?_, hf⟩
  rw [← hm.scopes_eq, toList_eq_elems, toList_eq_elems, hf.addresses, hm.frame.addresses, haddr]
  refine elems_congr fun b _ => ?_
  by_cases hba : b = a
  · rw [hba, hthis, hy]
    rfl
  · rw [(hother b hba).1]

/-! ### Blocks -/

/-- The store `s₁` has a new cell `n` for a child of the environment, and is as `s` otherwise, but
for one more holder of the environment. -/
structure IsChild (s : Scopes) (env : Environment) (n : Nat) (s₁ : Scopes) : Prop where
  fresh : s.cell? n = none
  cell : s₁.cell? n = some ⟨{}, env, 1⟩
  other : ∀ b, b ≠ n → s₁.cell? b = (s.retain env).cell? b
  scopes : s₁.toList (some n) = {} :: s.toList env
  addresses : s₁.addresses (some n) = n :: s.addresses env

theorem IsChild.held {s s₁ : Scopes} {env : Environment} {n : Nat} (h : IsChild s env n s₁) :
    Held s₁ (some n) :=
  ⟨n, _, rfl, h.cell, Nat.le_refl 1⟩

theorem exists_child {s : Scopes} {env : Environment} (h : Held s env) :
    ∃ n s₁, s.child env = (some n, s₁) ∧ IsChild s env n s₁ := by
  obtain ⟨a, c, rfl, hc, hpos⟩ := h
  have hlt := lt_size_of_cell? hc
  have hcell : ∀ b, (s.child (some a)).2.cell? b =
      if b = s.cells.size then some ⟨{}, some a, 1⟩ else (s.retain (some a)).cell? b :=
    s.cell?_push (some a) {}
  have hn : (s.child (some a)).2.cell? s.cells.size = some ⟨{}, some a, 1⟩ := by
    rw [hcell, if_pos rfl]
  have hne : ∀ b, b ≠ s.cells.size → (s.child (some a)).2.cell? b = (s.retain (some a)).cell? b := by
    intro b hb
    rw [hcell, if_neg hb]
  have hnext : older s.cells.size (⟨{}, some a, 1⟩ : Cell Scope) = some a :=
    older_eq (by rintro b ⟨⟩; exact hlt)
  -- Below the new cell only a count has changed.
  have hbelow : ∀ b < s.cells.size, ((s.child (some a)).2.cell? b).map (fun c => (c.elem, c.next)) =
      (s.cell? b).map fun c => (c.elem, c.next) := by
    intro b hb
    rw [hne b (by omega), map_cell?_retain]
  obtain ⟨haddr, hlist⟩ := toList_congr hbelow (some a) hlt
  refine ⟨s.cells.size, (s.child (some a)).2, rfl, s.cell?_size, hn, hne, ?_, ?_⟩
  · rw [toList_some hn, hnext, hlist]
  · rw [addresses_some _ hn, hnext, haddr]

theorem IsChild.older_eq {s s₁ : Scopes} {env : Environment} {n : Nat} (h : Held s env)
    (hchild : IsChild s env n s₁) (x : Scope) : older n (⟨x, env, 1⟩ : Cell Scope) = env := by
  obtain ⟨a, c, rfl, hc, hmem⟩ := h.exists_mem
  have haddr := hchild.addresses
  rw [addresses_some s₁ hchild.cell] at haddr
  rw [← (List.cons.inj haddr).2] at hmem
  have hlt := s₁.lt_reach_of_mem_addresses _ _ hmem
  have hle := reach_older_le n (⟨{}, some a, 1⟩ : Cell Scope)
  refine Store.older_eq ?_
  intro b hb
  cases hb
  omega

/-- Clearing the child away takes the top off the stack, and leaves the store with one more holder
of the environment. -/
theorem mirrors_erase {s s₁ s₂ : Scopes} {env : Environment} {n : Nat} {l : List Scope}
    (hchild : IsChild s env n s₁) (hm : Mirrors (some n) s₁ s₂ l) :
    Mirrors env (s.retain env) (s₂.erase n) l.tail := by
  have haddr := (s.toList_retain env env).1
  have hn : (s.retain env).cell? n = none := by
    rw [cell?_retain, hchild.fresh]
    split
    · rfl
    · rfl
  have hnot : n ∉ s.addresses env := by
    have hnodup := s₁.nodup_addresses (some n)
    rw [hchild.addresses, List.nodup_cons] at hnodup
    exact hnodup.1
  have hf : Frame ((s.retain env).addresses env) (s.retain env) (s₂.erase n) := by
    constructor
    · intro b
      rw [cell?_erase]
      by_cases hbn : b = n
      · rw [if_pos hbn, hbn, hn]
      · rw [if_neg hbn, hm.frame.shape b, hchild.other b hbn]
    · intro b hb
      rw [haddr] at hb
      rw [cell?_erase]
      by_cases hbn : b = n
      · rw [if_pos hbn, hbn, hn]
      · rw [if_neg hbn, hm.frame.cell b ?_, hchild.other b hbn]
        rw [hchild.addresses, List.mem_cons]
        exact fun h => h.elim hbn hb
  refine ⟨?_, hf⟩
  obtain ⟨x, hx⟩ := hm.frame.exists_cell hchild.cell
  have hl : l = x :: s₂.elems (s.addresses env) := by
    rw [← hm.scopes_eq, toList_eq_elems, hm.frame.addresses, hchild.addresses, elems_cons hx]
  rw [hl, List.tail_cons, toList_eq_elems, hf.addresses, haddr]
  refine elems_congr fun b hb => ?_
  have hbn : b ≠ n := by
    rintro rfl
    exact hnot hb
  rw [cell?_erase, if_neg hbn]

/-- **Leaving a block:** letting go of the child takes the top off the stack and leaves the rest of
the store as it was before the block. -/
theorem mirrors_release {s s₁ s₂ : Scopes} {env : Environment} {n : Nat} {l : List Scope}
    (h : Held s env) (hchild : IsChild s env n s₁) (hm : Mirrors (some n) s₁ s₂ l) :
    Mirrors env s (s₂.release (some n)) l.tail := by
  obtain ⟨x, hx⟩ := hm.frame.exists_cell hchild.cell
  have hrelease : s₂.release (some n) = (s₂.erase n).release env := by
    rw [release]
    simp only [hx, Nat.le_refl, if_true, hchild.older_eq h x]
  rw [hrelease]
  exact mirrors_retain_release h (mirrors_erase hchild hm)

end Scopes

end Lox
