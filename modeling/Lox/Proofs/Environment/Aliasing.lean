import Lox.Proofs.Environment.Mirror

/-!
# Who sees a write

Several environments may have a scope in common.  A variable that is written in a scope shows in
every environment that *sees* the scope: the scope is on its chain, and no scope before it has the
variable.

* `lookup?_eq_some_iff`: looking up gives the value in the scope that is seen and has the variable.
* `Writes s s' a name v`: the scope at `a` has got a value for a variable, and nothing else differs.
* `Writes.shows`: **the new value shows where the scope is seen, and nowhere else.**
* `writes_define`, `assign_cases`: defining writes in the first scope; assigning writes in the
  nearest scope that has the variable, or changes nothing where there is none.
-/

namespace Lox

open SharedList SharedList.Store

namespace Scopes

variable {s s' : Scopes} {env : Environment} {name : String} {a : Nat} {v : Value}

/-! ### Nearest scopes -/

/-- The value of a variable in the scope at an address. -/
def bound? (s : Scopes) (a : Nat) (name : String) : Option Value :=
  (s.cell? a).bind fun c => c.elem[name]?

/-- The scope at the address is on the chain of the environment, and no scope before it has the
variable. -/
def Sees (s : Scopes) (env : Environment) (name : String) (a : Nat) : Prop :=
  ∃ before after, s.addresses env = before ++ a :: after ∧ ∀ b ∈ before, s.bound? b name = none

theorem lookup?_eq_findSome? (s : Scopes) (env : Environment) (name : String) :
    s.lookup? env name = (s.addresses env).findSome? fun a => s.bound? a name := by
  rw [lookup?_eq, toList, ← List.head?_filterMap, List.filterMap_filterMap, List.head?_filterMap]
  refine congrArg (fun f => List.findSome? f (s.addresses env)) (funext fun a => ?_)
  rw [bound?, Option.bind_map]
  rfl

/-- **Looking up gives the value in the nearest scope that has the variable.** -/
theorem lookup?_eq_some_iff :
    s.lookup? env name = some v ↔ ∃ a, s.Sees env name a ∧ s.bound? a name = some v := by
  rw [lookup?_eq_findSome?, List.findSome?_eq_some_iff]
  constructor
  · rintro ⟨before, a, after, hsplit, hbound, hbefore⟩
    exact ⟨a, ⟨before, after, hsplit, hbefore⟩, hbound⟩
  · rintro ⟨a, ⟨before, after, hsplit, hbefore⟩, hbound⟩
    exact ⟨before, a, after, hsplit, hbound, hbefore⟩

theorem lookup?_eq_none_iff :
    s.lookup? env name = none ↔ ∀ a ∈ s.addresses env, s.bound? a name = none := by
  rw [lookup?_eq_findSome?, List.findSome?_eq_none_iff]

theorem sees_of_mem {before after : List Nat} (hsplit : s.addresses env = before ++ after)
    (hbefore : ∀ b ∈ before, s.bound? b name = none) (ha : a ∈ before) : s.Sees env name a := by
  obtain ⟨first, rest, rfl⟩ := List.append_of_mem ha
  refine ⟨first, rest ++ after, by rw [hsplit, List.append_assoc, List.cons_append], ?_⟩
  exact fun b hb => hbefore b (List.mem_append_left _ hb)

/-- **Only one scope is seen and has the variable,** the nearest one. -/
theorem Sees.find?_eq (h : s.Sees env name a) (ha : (s.bound? a name).isSome) :
    (s.addresses env).find? (fun b => (s.bound? b name).isSome) = some a := by
  obtain ⟨before, after, hsplit, hbefore⟩ := h
  refine List.find?_eq_some_iff_append.mpr ⟨ha, before, after, hsplit, fun b hb => ?_⟩
  rw [hbefore b hb]
  rfl

/-! ### Writes -/

/-- The scope at the address has got a value for a variable, and nothing else differs. -/
structure Writes (s s' : Scopes) (a : Nat) (name : String) (v : Value) : Prop where
  addresses : ∀ env, s'.addresses env = s.addresses env
  bound : ∀ b y, s'.bound? b y = if b = a ∧ y = name then some v else s.bound? b y

/-- Every environment that sees the scope has got the value for the variable, and in no other way do
the values of variables differ. -/
structure Shows (s s' : Scopes) (a : Nat) (name : String) (v : Value) : Prop where
  seen : ∀ env, s.Sees env name a → s'.lookup? env name = some v
  unseen : ∀ env, ¬ s.Sees env name a → s'.lookup? env name = s.lookup? env name
  other : ∀ env y, y ≠ name → s'.lookup? env y = s.lookup? env y

theorem Writes.bound_self (h : Writes s s' a name v) : s'.bound? a name = some v := by
  rw [h.bound, if_pos ⟨rfl, rfl⟩]

theorem Writes.bound_of_ne (h : Writes s s' a name v) {b : Nat} (hb : b ≠ a) (y : String) :
    s'.bound? b y = s.bound? b y := by
  rw [h.bound, if_neg fun heq => hb heq.1]

theorem Writes.sees (h : Writes s s' a name v) {before after : List Nat} {b : Nat}
    (hsplit : s.addresses env = before ++ b :: after)
    (hbefore : ∀ d ∈ before, s.bound? d name = none) (ha : a ∉ before) : s'.Sees env name b := by
  refine ⟨before, after, by rw [h.addresses, hsplit], fun d hd => ?_⟩
  have hne : d ≠ a := by
    rintro rfl
    exact ha hd
  rw [h.bound_of_ne hne]
  exact hbefore d hd

/-- **A write shows where the scope is seen, and nowhere else.** -/
theorem Writes.shows (h : Writes s s' a name v) : Shows s s' a name v := by
  refine ⟨?_, ?_, ?_⟩
  · rintro env ⟨before, after, hsplit, hbefore⟩
    have ha : a ∉ before := by
      have hnodup := s.nodup_addresses env
      rw [hsplit, List.nodup_append] at hnodup
      exact fun hm => hnodup.2.2 a hm a (List.mem_cons_self ..) rfl
    exact lookup?_eq_some_iff.mpr ⟨a, h.sees hsplit hbefore ha, h.bound_self⟩
  · intro env hunseen
    cases hlookup : s.lookup? env name with
    | none =>
      -- Were `a` on the chain, it would be seen, as no scope of the chain has the variable.
      have hnone := lookup?_eq_none_iff.mp hlookup
      have ha : a ∉ s.addresses env := by
        intro hm
        exact hunseen (sees_of_mem (List.append_nil _).symm hnone hm)
      rw [lookup?_eq_none_iff, h.addresses]
      intro b hb
      have hne : b ≠ a := by
        rintro rfl
        exact ha hb
      rw [h.bound_of_ne hne]
      exact hnone b hb
    | some w =>
      obtain ⟨b, ⟨before, after, hsplit, hbefore⟩, hbound⟩ := lookup?_eq_some_iff.mp hlookup
      have ha : a ∉ before := fun hm => hunseen (sees_of_mem hsplit hbefore hm)
      have hne : b ≠ a := by
        rintro rfl
        exact hunseen ⟨before, after, hsplit, hbefore⟩
      refine lookup?_eq_some_iff.mpr ⟨b, h.sees hsplit hbefore ha, ?_⟩
      rw [h.bound_of_ne hne]
      exact hbound
  · intro env y hy
    rw [lookup?_eq_findSome?, lookup?_eq_findSome?, h.addresses]
    refine congrArg (fun f => List.findSome? f (s.addresses env)) (funext fun b => ?_)
    rw [h.bound, if_neg fun heq => hy heq.2]

/-! ### Defining and assigning -/

theorem bound?_modify {c : Cell Scope} (hc : s.cell? a = some c) (f : Scope → Scope) (b : Nat)
    (y : String) : bound? (s.modify a fun c => { c with elem := f c.elem }) b y =
      if b = a then (f c.elem)[y]? else s.bound? b y := by
  unfold bound?
  rw [cell?_modify]
  by_cases hb : b = a
  · rw [if_pos hb, if_pos hb, hb, hc]
    rfl
  · rw [if_neg hb, if_neg hb]

theorem bound?_modify_insert {c : Cell Scope} (hc : s.cell? a = some c) {f : Scope → Scope}
    (hf : f c.elem = c.elem.insert name v) (b : Nat) (y : String) :
    bound? (s.modify a fun c => { c with elem := f c.elem }) b y =
      if b = a ∧ y = name then some v else s.bound? b y := by
  rw [bound?_modify hc, hf]
  by_cases hb : b = a
  · rw [if_pos hb, Std.TreeMap.getElem?_insert, hb, bound?, hc]
    by_cases hy : y = name
    · simp [hy]
    · simp [hy, Ne.symm hy]
  · rw [if_neg hb, if_neg fun heq => hb heq.1]

theorem writes_define {c : Cell Scope} (hc : s.cell? a = some c) (name : String) (v : Value) :
    Writes s (s.define (some a) name v) a name v := by
  have hframe : Frame [a] s (s.define (some a) name v) :=
    frame_modify s (List.mem_singleton_self a) fun scope => scope.insert name v
  exact ⟨hframe.addresses, bound?_modify_insert hc (f := fun scope => scope.insert name v) rfl⟩

theorem updateAt_rebind_cases (name : String) (v : Value) (as : List Nat) : ∀ s : Scopes,
    (∃ before a after, ∃ s' : Scopes, as = before ++ a :: after ∧ (∀ b ∈ before, s.bound? b name = none) ∧
        (s.bound? a name).isSome ∧ updateAt (rebind name v) as s = (some (), s') ∧
        ∀ b y, s'.bound? b y = if b = a ∧ y = name then some v else s.bound? b y) ∨
      ((∀ b ∈ as, s.bound? b name = none) ∧ ∃ s' : Scopes, updateAt (rebind name v) as s = (none, s') ∧
        ∀ b y, s'.bound? b y = s.bound? b y) := by
  induction as with
  | nil => exact fun s => .inr ⟨List.forall_mem_nil _, s, rfl, fun _ _ => rfl⟩
  | cons a as ih =>
    intro s
    -- A scope without the variable is passed over, in a store `t` with the same scopes.
    have hskip : ∀ t : Scopes, s.bound? a name = none → (∀ b y, t.bound? b y = s.bound? b y) →
        updateAt (rebind name v) (a :: as) s = updateAt (rebind name v) as t →
        (∃ before d after, ∃ s' : Scopes, a :: as = before ++ d :: after ∧
            (∀ b ∈ before, s.bound? b name = none) ∧ (s.bound? d name).isSome ∧
            updateAt (rebind name v) (a :: as) s = (some (), s') ∧
            ∀ b y, s'.bound? b y = if b = d ∧ y = name then some v else s.bound? b y) ∨
          ((∀ b ∈ a :: as, s.bound? b name = none) ∧
            ∃ s' : Scopes, updateAt (rebind name v) (a :: as) s = (none, s') ∧
            ∀ b y, s'.bound? b y = s.bound? b y) := by
      intro t ha ht hstep
      rcases ih t with ⟨before, d, after, s', rfl, hbefore, hd, hupdate, hbound⟩ |
          ⟨hnone, s', hupdate, hbound⟩
      · refine .inl ⟨a :: before, d, after, s', rfl, ?_, by rwa [← ht], hstep.trans hupdate, ?_⟩
        · rintro b (_ | ⟨_, hb⟩)
          · exact ha
          · rw [← ht]
            exact hbefore b hb
        · intro b y
          rw [hbound, ht]
      · refine .inr ⟨?_, s', hstep.trans hupdate, fun b y => (hbound b y).trans (ht b y)⟩
        rintro b (_ | ⟨_, hb⟩)
        · exact ha
        · rw [← ht]
          exact hnone b hb
    cases hc : s.cell? a with
    | none =>
      have ha : s.bound? a name = none := by
        rw [bound?, hc]
        rfl
      exact hskip s ha (fun _ _ => rfl) (by simp only [updateAt, hc])
    | some c =>
      have hbound : s.bound? a name = c.elem[name]? := by
        rw [bound?, hc]
        rfl
      by_cases hcont : c.elem.contains name
      · refine .inl ⟨[], a, as, _, rfl, List.forall_mem_nil _, ?_, ?_,
          bound?_modify_insert hc (f := fun _ => c.elem.insert name v) rfl⟩
        · rw [hbound, ← Std.TreeMap.contains_eq_isSome_getElem?]
          exact hcont
        · simp only [updateAt, hc, rebind, if_pos hcont]
      · have ha : s.bound? a name = none := by
          rw [hbound]
          exact Std.TreeMap.getElem?_eq_none fun hm => hcont (Std.TreeMap.contains_iff_mem.mpr hm)
        refine hskip (s.modify a fun c' => { c' with elem := c.elem }) ha (fun b y => ?_)
          (by simp only [updateAt, hc, rebind, if_neg hcont])
        rw [bound?_modify hc fun _ => c.elem]
        by_cases hb : b = a
        · rw [if_pos hb, hb, bound?, hc]
          rfl
        · rw [if_neg hb]

/-- **Assigning writes in the nearest scope that has the variable,** and where there is none it
changes nothing. -/
theorem assign_cases (s : Scopes) (env : Environment) (name : String) (v : Value) :
    (∃ a s', s.Sees env name a ∧ (s.bound? a name).isSome ∧ s.assign env name v = (true, s') ∧
        Writes s s' a name v) ∨
      (s.lookup? env name = none ∧ ∃ s', s.assign env name v = (false, s') ∧
        ∀ env' y, s'.lookup? env' y = s.lookup? env' y) := by
  have haddresses : ∀ answer s', s.update (rebind name v) env = (answer, s') →
      ∀ env', s'.addresses env' = s.addresses env' := by
    intro answer s' hupdate
    obtain ⟨s'', hframe, hcase⟩ := updateAt_rebind name v (s.addresses env) s (s.nodup_addresses env)
    have hs : s'' = s' := by
      rcases hcase with ⟨l, -, heq, -⟩ | ⟨-, heq, -⟩
      · exact congrArg Prod.snd (heq.symm.trans hupdate)
      · exact congrArg Prod.snd (heq.symm.trans hupdate)
    exact hs ▸ hframe.addresses
  rcases updateAt_rebind_cases name v (s.addresses env) s with
    ⟨before, a, after, s', hsplit, hbefore, ha, hupdate, hbound⟩ | ⟨hnone, s', hupdate, hbound⟩
  · refine .inl ⟨a, s', ⟨before, after, hsplit, hbefore⟩, ha, ?_, haddresses _ s' hupdate, hbound⟩
    rw [assign, update, hupdate]
    rfl
  · refine .inr ⟨lookup?_eq_none_iff.mpr hnone, s', ?_, fun env' y => ?_⟩
    · rw [assign, update, hupdate]
      rfl
    · rw [lookup?_eq_findSome?, lookup?_eq_findSome?, haddresses _ s' hupdate]
      exact congrArg (fun f => List.findSome? f (s.addresses env'))
        (funext fun b => hbound b y)

end Scopes

end Lox
