import Lox.Proofs.SharedList.Frame

/-!
# What two lists have in common

Two lists that have a cell in common have all cells after it in common as well.  So the cells of two
lists are the last ones of both, and all others belong to one of them only (`SharesLast`).  How many
they share depends on their chains alone.

A write in the cells of one list shows in the other at the same distance from the end, for as many
of the last elements as the two share, and nowhere else (`SharesLast.fromEnd?_of_le`,
`SharesLast.fromEnd?_of_lt`, `SharesLast.writesAt`).
-/

namespace Lox

namespace SharedList

namespace Store

variable {α : Type} {s s' : Store α} {l l' : Link} {k : Nat}

/-! ### Common cells -/

theorem exists_addresses_append (s : Store α) (l : Link) {a : Nat} (ha : a ∈ s.addresses l) :
    ∃ before, s.addresses l = before ++ s.addresses (some a) := by
  induction l using s.chain_induction with
  | nil =>
    rw [addresses_none] at ha
    cases ha
  | gone b hc =>
    rw [addresses_of_cell?_none hc] at ha
    cases ha
  | cons b c hc ih =>
    rw [addresses_some s hc] at ha
    rcases List.mem_cons.mp ha with rfl | ha
    · exact ⟨[], rfl⟩
    · obtain ⟨before, hbefore⟩ := ih ha
      exact ⟨b :: before, by rw [addresses_some s hc, hbefore]; rfl⟩

/-- The last `k` cells of the two lists are the same, and no other cell of the one is a cell of the
other. -/
def SharesLast (s : Store α) (l l' : Link) (k : Nat) : Prop :=
  ∃ own own' common, s.addresses l = own ++ common ∧ s.addresses l' = own' ++ common ∧
    common.length = k ∧ (∀ a ∈ own, a ∉ s.addresses l') ∧ ∀ a ∈ own', a ∉ s.addresses l

/-- **Two lists share their last cells.** -/
theorem exists_sharesLast (s : Store α) (l l' : Link) : ∃ k, s.SharesLast l l' k := by
  induction l using s.chain_induction with
  | nil =>
    refine ⟨0, [], s.addresses l', [], ?_, ?_, rfl, nofun, ?_⟩
    · rw [addresses_none]; rfl
    · rw [List.append_nil]
    · simp
  | gone a hc =>
    refine ⟨0, [], s.addresses l', [], ?_, ?_, rfl, nofun, ?_⟩
    · rw [addresses_of_cell?_none hc]; rfl
    · rw [List.append_nil]
    · simp [addresses_of_cell?_none hc]
  | cons a c hc ih =>
    by_cases ha : a ∈ s.addresses l'
    · -- The other list goes through the first cell of this one.
      obtain ⟨own', hown'⟩ := s.exists_addresses_append l' ha
      refine ⟨_, [], own', s.addresses (some a), rfl, hown', rfl, nofun, fun b hb hb' => ?_⟩
      have hnodup := s.nodup_addresses l'
      rw [hown', List.nodup_append] at hnodup
      exact hnodup.2.2 b hb b hb' rfl
    · obtain ⟨k, own, own', common, hl, hl', hk, hown, hown'⟩ := ih
      refine ⟨k, a :: own, own', common, ?_, hl', hk, ?_, fun b hb hb' => ?_⟩
      · rw [addresses_some s hc, hl]; rfl
      · exact List.forall_mem_cons.mpr ⟨ha, hown⟩
      · rw [addresses_some s hc] at hb'
        rcases List.mem_cons.mp hb' with rfl | hb'
        · exact ha (by rw [hl']; exact List.mem_append_left _ hb)
        · exact hown' b hb hb'

theorem SharesLast.congr (h : s.SharesLast l l' k) (hl : s'.addresses l = s.addresses l)
    (hl' : s'.addresses l' = s.addresses l') : s'.SharesLast l l' k := by
  unfold SharesLast
  rw [hl, hl']
  exact h

/-! ### Elements counted from the end -/

/-- The element at a distance from the end of a list, the last one being at distance one. -/
def fromEnd? (s : Store α) (l : Link) : Nat → Option α
  | 0 => none
  | i + 1 => (s.toList l).reverse[i]?

theorem length_elems {as : List Nat} (h : ∀ a ∈ as, ∃ c, s.cell? a = some c) :
    (s.elems as).length = as.length := by
  induction as with
  | nil => rfl
  | cons a as ih =>
    obtain ⟨⟨c, hc⟩, h⟩ := List.forall_mem_cons.mp h
    rw [elems_cons hc, List.length_cons, List.length_cons, ih h]

@[simp]
theorem length_toList (s : Store α) (l : Link) : (s.toList l).length = s.length l :=
  length_elems (s.exists_cell_of_mem_addresses l)

theorem elems_append (s : Store α) (as bs : List Nat) :
    s.elems (as ++ bs) = s.elems as ++ s.elems bs :=
  List.filterMap_append

theorem toList_eq_of_fromEnd? (h : ∀ i, s'.fromEnd? l' i = s.fromEnd? l i) :
    s'.toList l' = s.toList l :=
  List.reverse_injective (List.ext_getElem? fun i => h (i + 1))

theorem fromEnd?_append {own common : List Nat} (hl : s.addresses l = own ++ common) (i : Nat) :
    s.fromEnd? l (i + 1) = if i < common.length then (s.elems common).reverse[i]?
      else (s.elems own).reverse[i - common.length]? := by
  have hlength : (s.elems common).reverse.length = common.length := by
    rw [List.length_reverse]
    refine length_elems fun a ha => s.exists_cell_of_mem_addresses l a ?_
    rw [hl]
    exact List.mem_append_right _ ha
  rw [fromEnd?, toList_eq_elems, hl, elems_append, List.reverse_append, List.getElem?_append,
    hlength]

theorem SharesLast.fromEnd?_of_le (h : s.SharesLast l l' k) {i : Nat} (hi : i ≤ k) :
    s.fromEnd? l' i = s.fromEnd? l i := by
  obtain ⟨own, own', common, hl, hl', rfl, -, -⟩ := h
  cases i with
  | zero => rfl
  | succ i =>
    have hlt : i < common.length := hi
    rw [fromEnd?_append hl, fromEnd?_append hl', if_pos hlt, if_pos hlt]

/-- **The other elements of a list are not written through the other list.** -/
theorem SharesLast.fromEnd?_of_lt (h : s.SharesLast l l' k) (hf : Frame (s.addresses l) s s')
    {i : Nat} (hi : k < i) : s'.fromEnd? l' i = s.fromEnd? l' i := by
  obtain ⟨own, own', common, hl, hl', rfl, -, hown'⟩ := h
  cases i with
  | zero => rfl
  | succ i =>
    have hsame : s'.elems own' = s.elems own' :=
      elems_congr fun a ha => by rw [hf.cell a (hown' a ha)]
    rw [fromEnd?_append ((hf.addresses l').trans hl'), fromEnd?_append hl', hsame,
      if_neg (by omega), if_neg (by omega)]

/-- The element at a distance from the end of a list is now `y`, and the others are the same. -/
def WritesAt (s s' : Store α) (l : Link) (i : Nat) (y : α) : Prop :=
  1 ≤ i ∧ i ≤ s.length l ∧ ∀ j, s'.fromEnd? l j = if j = i then some y else s.fromEnd? l j

/-- **A write through one list to the element at distance `i` shows in the other at that distance if
`i ≤ k`,** and otherwise the other list is unchanged. -/
theorem SharesLast.writesAt (h : s.SharesLast l l' k) (hf : Frame (s.addresses l) s s') {i : Nat}
    {y : α} (hw : s.WritesAt s' l i y) :
    (i ≤ k → s.WritesAt s' l' i y) ∧ (k < i → s'.toList l' = s.toList l') := by
  obtain ⟨hi, -, hw⟩ := hw
  have h' : s'.SharesLast l l' k := h.congr (hf.addresses l) (hf.addresses l')
  have hother : ∀ j, s'.fromEnd? l' j = if j = i ∧ i ≤ k then some y else s.fromEnd? l' j := by
    intro j
    by_cases hj : j ≤ k
    · rw [h'.fromEnd?_of_le hj, hw, h.fromEnd?_of_le hj]
      by_cases hji : j = i
      · rw [if_pos hji, if_pos ⟨hji, hji ▸ hj⟩]
      · rw [if_neg hji, if_neg fun hc => hji hc.1]
    · rw [h.fromEnd?_of_lt hf (by omega), if_neg (by omega)]
  refine ⟨fun hik => ⟨hi, ?_, fun j => ?_⟩, fun hki => toList_eq_of_fromEnd? fun j => ?_⟩
  · obtain ⟨own, own', common, -, hl', rfl, -, -⟩ := h
    rw [length, hl', List.length_append]
    omega
  · rw [hother]
    by_cases hji : j = i
    · rw [if_pos ⟨hji, hik⟩, if_pos hji]
    · rw [if_neg fun hc => hji hc.1, if_neg hji]
  · rw [hother, if_neg (by omega)]

end Store

end SharedList

end Lox
