import Lox.SharedList.Store
import Mathlib.Data.List.Basic

/-!
# What operations on a store leave alone

First the cell at an address after each operation.  Then chains: the addresses of a list depend on
the links of older cells only, and they go down, so that no cell comes twice.

`Frame as s s'` says that `s'` has the cells of `s`, with the same links and counts, and that only
elements at the addresses `as` may differ.  Lists then have the same addresses in both.
-/

namespace Lox

namespace SharedList

namespace Store

variable {α β : Type}

/-! ### The cell at an address -/

@[simp]
theorem cell?_modify (s : Store α) (a b : Nat) (f : Cell α → Cell α) :
    (s.modify a f).cell? b = if b = a then (s.cell? b).map f else s.cell? b := by
  unfold cell? modify
  simp only [Array.getElem?_modify]
  by_cases h : b = a
  · subst h
    rw [if_pos rfl, if_pos rfl]
    cases s.cells[b]? with
    | none => rfl
    | some c => cases c <;> rfl
  · rw [if_neg (Ne.symm h), if_neg h]

@[simp]
theorem cell?_erase (s : Store α) (a b : Nat) :
    (s.erase a).cell? b = if b = a then none else s.cell? b := by
  unfold cell? erase
  simp only [Array.getElem?_modify]
  by_cases h : b = a
  · subst h
    rw [if_pos rfl, if_pos rfl]
    cases s.cells[b]? <;> rfl
  · rw [if_neg (Ne.symm h), if_neg h]

@[simp]
theorem cell?_retain (s : Store α) (l : Link) (b : Nat) :
    (s.retain l).cell? b =
      if l = some b then (s.cell? b).map fun c => { c with holders := c.holders + 1 }
      else s.cell? b := by
  cases l with
  | none => rfl
  | some a =>
    rw [retain, cell?_modify]
    by_cases h : b = a
    · rw [if_pos h, if_pos (by rw [h])]
    · rw [if_neg h, if_neg (fun he => h (Option.some.inj he).symm)]

@[simp]
theorem size_retain (s : Store α) (l : Link) : (s.retain l).cells.size = s.cells.size := by
  cases l with
  | none => rfl
  | some a => exact Array.size_modify

theorem lt_size_of_cell? {s : Store α} {a : Nat} {c : Cell α} (h : s.cell? a = some c) :
    a < s.cells.size := by
  refine Nat.lt_of_not_le fun hn => ?_
  unfold cell? at h
  rw [Array.getElem?_eq_none hn] at h
  cases h

@[simp]
theorem cell?_size (s : Store α) : s.cell? s.cells.size = none := by
  unfold cell?
  rw [Array.getElem?_eq_none (Nat.le_refl _)]
  rfl

@[simp]
theorem cell?_push (s : Store α) (l : Link) (x : α) (b : Nat) :
    (s.push l x).2.cell? b =
      if b = s.cells.size then some ⟨x, l, 1⟩ else (s.retain l).cell? b := by
  unfold push cell?
  simp only [Array.getElem?_push, size_retain]
  by_cases h : b = s.cells.size
  · rw [if_pos h, if_pos h]
    rfl
  · rw [if_neg h, if_neg h]

/-! ### The addresses of a list -/

theorem addresses_of_cell?_none {s : Store α} {a : Nat} (h : s.cell? a = none) :
    s.addresses (some a) = [] := by
  rw [addresses, addressesAfter]
  simp only [h]
  rfl

/-- A link to an older cell is followed. -/
theorem older_eq {a : Nat} {c : Cell α} (h : ∀ b, c.next = some b → b < a) :
    older a c = c.next := by
  unfold older
  cases hn : c.next with
  | none => rfl
  | some b => simp [Option.filter, h b hn]

theorem reach_older_le (a : Nat) (c : Cell α) : reach (older a c) ≤ a :=
  Nat.le_of_lt_succ (reach_older_lt a c)

/-- **Induction along a chain:** from a list to the one with a cell before it. -/
theorem chain_induction (s : Store α) {motive : Link → Prop} (nil : motive none)
    (gone : ∀ a, s.cell? a = none → motive (some a))
    (cons : ∀ a c, s.cell? a = some c → motive (older a c) → motive (some a)) :
    ∀ l, motive l := by
  intro l
  induction hr : reach l using Nat.strongRecOn generalizing l with
  | ind r ih =>
    cases l with
    | none => exact nil
    | some a =>
      cases hc : s.cell? a with
      | none => exact gone a hc
      | some c =>
        have hlt := reach_older_lt a c
        simp only [reach] at hr
        exact cons a c hc (ih _ (by omega) (older a c) rfl)

/-- **The addresses of a list depend on the links of the cells below it only.** -/
theorem addresses_congr {s s' : Store α} {n : Nat}
    (h : ∀ a < n, (s'.cell? a).map Cell.next = (s.cell? a).map Cell.next) :
    ∀ l : Link, reach l ≤ n → s'.addresses l = s.addresses l := by
  intro l
  induction hr : reach l using Nat.strongRecOn generalizing l with
  | ind r ih =>
    intro hle
    cases l with
    | none => rw [addresses_none, addresses_none]
    | some a =>
      have ha := h a (by simp only [reach] at hr; omega)
      cases hc : s.cell? a with
      | none =>
        rw [hc, Option.map_none, Option.map_eq_none_iff] at ha
        rw [addresses_of_cell?_none hc, addresses_of_cell?_none ha]
      | some c =>
        rw [hc, Option.map_some, Option.map_eq_some_iff] at ha
        obtain ⟨c', hc', hnext⟩ := ha
        have hold : older a c' = older a c := by unfold older; rw [hnext]
        have hlt := reach_older_lt a c
        simp only [reach] at hr
        rw [addresses_some s hc, addresses_some s' hc', hold,
          ih _ (by omega) (older a c) rfl (by omega)]

/-- The addresses of a list are below its reach. -/
theorem lt_reach_of_mem_addresses (s : Store α) :
    ∀ (l : Link) (b : Nat), b ∈ s.addresses l → b < reach l := by
  intro l
  induction l using s.chain_induction with
  | nil => simp
  | gone a hc => simp [addresses_of_cell?_none hc]
  | cons a c hc ih =>
    intro b hb
    rw [addresses_some s hc] at hb
    have hlt := reach_older_lt a c
    rcases List.mem_cons.mp hb with rfl | hb
    · exact Nat.lt_succ_self b
    · exact Nat.lt_trans (ih b hb) hlt

/-- At the addresses of a list there are cells. -/
theorem exists_cell_of_mem_addresses (s : Store α) :
    ∀ (l : Link) (b : Nat), b ∈ s.addresses l → ∃ c, s.cell? b = some c := by
  intro l
  induction l using s.chain_induction with
  | nil => simp
  | gone a hc => simp [addresses_of_cell?_none hc]
  | cons a c hc ih =>
    intro b hb
    rw [addresses_some s hc] at hb
    rcases List.mem_cons.mp hb with rfl | hb
    · exact ⟨c, hc⟩
    · exact ih b hb

theorem not_mem_addresses_older (s : Store α) (a : Nat) (c : Cell α) :
    a ∉ s.addresses (older a c) := by
  intro h
  have hlt := s.lt_reach_of_mem_addresses _ _ h
  have hle := reach_older_le a c
  omega

/-- **No cell comes twice in a list.** -/
theorem nodup_addresses (s : Store α) (l : Link) : (s.addresses l).Nodup := by
  induction l using s.chain_induction with
  | nil => simp
  | gone a hc => simp [addresses_of_cell?_none hc]
  | cons a c hc ih =>
    rw [addresses_some s hc, List.nodup_cons]
    exact ⟨s.not_mem_addresses_older a c, ih⟩

/-! ### The elements at addresses -/

/-- The elements at addresses, where there are cells. -/
def elems (s : Store α) (as : List Nat) : List α := as.filterMap fun a => (s.cell? a).map Cell.elem

theorem toList_eq_elems (s : Store α) (l : Link) : s.toList l = s.elems (s.addresses l) := rfl

theorem elems_cons {s : Store α} {a : Nat} {c : Cell α} (h : s.cell? a = some c) (as : List Nat) :
    s.elems (a :: as) = c.elem :: s.elems as := by
  unfold elems
  rw [List.filterMap_cons, h]
  rfl

theorem elems_cons_none {s : Store α} {a : Nat} (h : s.cell? a = none) (as : List Nat) :
    s.elems (a :: as) = s.elems as := by
  unfold elems
  rw [List.filterMap_cons, h]
  rfl

/-- Cells that have the same elements give the same elements. -/
theorem elems_congr {s s' : Store α} {as : List Nat}
    (h : ∀ a ∈ as, (s'.cell? a).map Cell.elem = (s.cell? a).map Cell.elem) :
    s'.elems as = s.elems as := by
  unfold elems
  exact List.filterMap_congr h

theorem elems_modify_of_not_mem (s : Store α) {a : Nat} {as : List Nat} (ha : a ∉ as)
    (f : Cell α → Cell α) : (s.modify a f).elems as = s.elems as := by
  refine elems_congr fun b hb => ?_
  have hne : b ≠ a := by
    rintro rfl
    exact ha hb
  rw [cell?_modify, if_neg hne]

/-- **The elements of a list are its first one and those of the list after it.** -/
theorem toList_some {s : Store α} {a : Nat} {c : Cell α} (h : s.cell? a = some c) :
    s.toList (some a) = c.elem :: s.toList (older a c) := by
  rw [toList_eq_elems, addresses_some s h, elems_cons h, toList_eq_elems]

/-- **A list depends on the elements and links of the cells below it only,** and not on any count.
-/
theorem toList_congr {s s' : Store α} {n : Nat}
    (h : ∀ a < n, (s'.cell? a).map (fun c => (c.elem, c.next)) =
      (s.cell? a).map fun c => (c.elem, c.next)) (l : Link) (hl : reach l ≤ n) :
    s'.addresses l = s.addresses l ∧ s'.toList l = s.toList l := by
  have haddr : s'.addresses l = s.addresses l := by
    refine addresses_congr (fun a ha => ?_) l hl
    have := congrArg (Option.map Prod.snd) (h a ha)
    rwa [Option.map_map, Option.map_map] at this
  refine ⟨haddr, ?_⟩
  rw [toList_eq_elems, haddr]
  refine elems_congr fun a ha => ?_
  have hlt := s.lt_reach_of_mem_addresses _ _ ha
  have := congrArg (Option.map Prod.fst) (h a (by omega))
  rwa [Option.map_map, Option.map_map] at this

/-- One more holder changes nothing but a count. -/
theorem map_cell?_retain (s : Store α) (l : Link) (b : Nat) :
    ((s.retain l).cell? b).map (fun c => (c.elem, c.next)) =
      (s.cell? b).map fun c => (c.elem, c.next) := by
  rw [cell?_retain]
  split
  · cases s.cell? b <;> rfl
  · rfl

theorem toList_retain (s : Store α) (l l' : Link) :
    (s.retain l).addresses l' = s.addresses l' ∧ (s.retain l).toList l' = s.toList l' :=
  toList_congr (fun b _ => s.map_cell?_retain l b) l' (Nat.le_refl _)

/-! ### Frames -/

/-- The cells of the two stores have the same links and counts, and the same elements but for those
at the given addresses. -/
structure Frame (as : List Nat) (s s' : Store α) : Prop where
  shape : ∀ a, (s'.cell? a).map (fun c => (c.next, c.holders)) =
    (s.cell? a).map fun c => (c.next, c.holders)
  cell : ∀ a, a ∉ as → s'.cell? a = s.cell? a

namespace Frame

variable {as : List Nat} {s s' s'' : Store α}

theorem refl (as : List Nat) (s : Store α) : Frame as s s := ⟨fun _ => rfl, fun _ _ => rfl⟩

theorem trans (h : Frame as s s') (h' : Frame as s' s'') : Frame as s s'' :=
  ⟨fun a => (h'.shape a).trans (h.shape a), fun a ha => (h'.cell a ha).trans (h.cell a ha)⟩

theorem weaken {bs : List Nat} (h : Frame as s s') (hab : ∀ a ∈ as, a ∈ bs) : Frame bs s s' :=
  ⟨h.shape, fun a ha => h.cell a fun hm => ha (hab a hm)⟩

/-- A cell keeps its link and its count. -/
theorem exists_cell (h : Frame as s s') {a : Nat} {c : Cell α} (hc : s.cell? a = some c) :
    ∃ x, s'.cell? a = some ⟨x, c.next, c.holders⟩ := by
  have hs := h.shape a
  rw [hc, Option.map_some, Option.map_eq_some_iff] at hs
  obtain ⟨⟨x, next, holders⟩, hc', heq⟩ := hs
  cases heq
  exact ⟨x, hc'⟩

theorem cell?_eq_none (h : Frame as s s') {a : Nat} (hc : s.cell? a = none) :
    s'.cell? a = none := by
  have hs := h.shape a
  rwa [hc, Option.map_none, Option.map_eq_none_iff] at hs

/-- **Lists keep their addresses.** -/
theorem addresses (h : Frame as s s') (l : Link) : s'.addresses l = s.addresses l := by
  refine addresses_congr (n := reach l) (fun a _ => ?_) l (Nat.le_refl _)
  have hs := congrArg (Option.map Prod.fst) (h.shape a)
  rwa [Option.map_map, Option.map_map] at hs

end Frame

/-- Putting an element in the place of another one. -/
theorem frame_modify (s : Store α) {a : Nat} {as : List Nat} (ha : a ∈ as) (f : α → α) :
    Frame as s (s.modify a fun c => { c with elem := f c.elem }) := by
  constructor
  · intro b
    rw [cell?_modify]
    by_cases h : b = a
    · rw [if_pos h]
      cases s.cell? b <;> rfl
    · rw [if_neg h]
  · intro b hb
    have hne : b ≠ a := by
      rintro rfl
      exact hb ha
    rw [cell?_modify, if_neg hne]

end Store

end SharedList

end Lox
