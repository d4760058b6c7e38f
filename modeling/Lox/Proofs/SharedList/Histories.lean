import Lox.Proofs.SharedList.Counts
import Lox.Proofs.SharedList.Suffix
import Lox.Proofs.SharedList.Visits

/-!
# Lists over their history

Lists are made under names, empty, as another handle on a list or with an element before those of a
list; their elements are changed, the first one or those that a visit comes to; and they are
dropped.  After every history of such actions the counts are right (`Counted.run`), and so:

* a cell keeps its link, and the address of a cell that was cleared away is not used again
  (`Grows`); links lead to older cells, so that following them comes to an end (`Chain`);
* a list keeps its cells for as long as no action makes or drops it (`Counted.run_stays`), and two
  lists then share as many cells as they ever did;
* an action that writes does so in the cells of one list only (`Counted.frame_of_writes`).

`lists_share_a_suffix` puts this together.
-/

namespace Lox

namespace SharedList

variable {α β : Type}

namespace Store

/-! ### Links -/

/-- Following the links of cells from a list comes to an end, after these cells. -/
inductive Chain (s : Store α) : Link → List Nat → Prop
  | nil : Chain s none []
  | cons {a : Nat} {c : Cell α} {as : List Nat} (hc : s.cell? a = some c)
      (h : Chain s c.next as) : Chain s (some a) (a :: as)

/-- **What is held is followed to its end.** -/
theorem Counted.chain {s : Store α} {handles : Nat → Nat} (h : s.Counted handles) (l : Link)
    (hl : ∀ a, l = some a → 0 < s.holdersAt a) : s.Chain l (s.addresses l) := by
  induction l using s.chain_induction with
  | nil =>
    rw [addresses_none]
    exact .nil
  | gone a hc =>
    obtain ⟨c, hc'⟩ := exists_cell_of_pos (hl a rfl)
    exact nomatch hc.symm.trans hc'
  | cons a c hc ih =>
    have hnext := h.older hc
    rw [hnext] at ih
    rw [addresses_some s hc, hnext]
    exact .cons hc (ih fun b hb => h.pos_of_next hc hb)

theorem Counted.link_older {s : Store α} {handles : Nat → Nat} (h : s.Counted handles) {a b : Nat}
    {c : Cell α} (hc : s.cell? a = some c) (hb : c.next = some b) :
    b < a ∧ ∃ d, s.cell? b = some d := by
  have hreach := reach_older_le a c
  rw [h.older hc, hb] at hreach
  exact ⟨hreach, exists_cell_of_pos (h.pos_of_next hc hb)⟩

/-- Cells were added at new addresses and cleared away, and the cells that are still there have the
links that they had. -/
structure Grows (s s' : Store α) : Prop where
  size : s.cells.size ≤ s'.cells.size
  link : ∀ {a c'}, a < s.cells.size → s'.cell? a = some c' →
    ∃ c, s.cell? a = some c ∧ c.next = c'.next

namespace Grows

theorem refl (s : Store α) : Grows s s := ⟨Nat.le_refl _, fun _ hc => ⟨_, hc, rfl⟩⟩

theorem trans {s s' s'' : Store α} (h : Grows s s') (h' : Grows s' s'') : Grows s s'' := by
  refine ⟨Nat.le_trans h.size h'.size, fun {a c''} ha hc'' => ?_⟩
  obtain ⟨c', hc', hnext'⟩ := h'.link (Nat.lt_of_lt_of_le ha h.size) hc''
  obtain ⟨c, hc, hnext⟩ := h.link ha hc'
  exact ⟨c, hc, hnext.trans hnext'⟩

end Grows

theorem grows_frame {s s' : Store α} {as : List Nat} (hf : Frame as s s')
    (hsize : s'.cells.size = s.cells.size) : Grows s s' := by
  refine ⟨Nat.le_of_eq hsize.symm, fun {a c'} _ hc' => ?_⟩
  cases hc : s.cell? a with
  | none => exact nomatch hc'.symm.trans (hf.cell?_eq_none hc)
  | some c =>
    obtain ⟨x, hx⟩ := hf.exists_cell hc
    cases hx.symm.trans hc'
    exact ⟨c, rfl, rfl⟩

theorem grows_retain (s : Store α) (l : Link) : Grows s (s.retain l) := by
  refine ⟨Nat.le_of_eq (s.size_retain l).symm, fun {a c'} _ hc' => ?_⟩
  rw [cell?_retain] at hc'
  split at hc'
  · obtain ⟨c, hc, rfl⟩ := Option.map_eq_some_iff.mp hc'
    exact ⟨c, hc, rfl⟩
  · exact ⟨c', hc', rfl⟩

theorem grows_push (s : Store α) (l : Link) (x : α) : Grows s (s.push l x).2 := by
  refine ⟨?_, fun {a c'} ha hc' => ?_⟩
  · rw [push, Array.size_push, size_retain]
    exact Nat.le_succ _
  · rw [cell?_push, if_neg (Nat.ne_of_lt ha)] at hc'
    exact (s.grows_retain l).link ha hc'

@[simp]
theorem size_release (s : Store α) (l : Link) : (s.release l).cells.size = s.cells.size := by
  fun_induction Store.release s l with
  | case1 s => rfl
  | case2 s a => rfl
  | case3 s a c hc hlast ih => exact ih.trans Array.size_modify
  | case4 s a c hc hmore => exact Array.size_modify

theorem grows_release (s : Store α) (l : Link) : Grows s (s.release l) := by
  refine ⟨Nat.le_of_eq (s.size_release l).symm, fun {a c'} _ hc' => ?_⟩
  obtain ⟨c, hc, -, hnext⟩ := s.within_release l hc'
  exact ⟨c, hc, hnext⟩

/-! ### Writing one element -/

theorem fromEnd?_succ (s : Store α) (l : Link) (j : Nat) :
    s.fromEnd? l (j + 1) = if j < s.length l then (s.toList l)[s.length l - 1 - j]? else none := by
  rw [fromEnd?]
  by_cases hj : j < s.length l
  · rw [if_pos hj, List.getElem?_reverse (by rwa [length_toList]), length_toList]
  · rw [if_neg hj, List.getElem?_eq_none]
    rw [List.length_reverse, length_toList]
    exact Nat.le_of_not_lt hj

theorem writesAt_of_set {s s' : Store α} {l : Link} {i : Nat} {y : α} (hi : 1 ≤ i)
    (hle : i ≤ s.length l) (h : s'.toList l = (s.toList l).set (s.length l - i) y) :
    s.WritesAt s' l i y := by
  have hlength : s'.length l = s.length l := by
    rw [← length_toList, h, List.length_set, length_toList]
  refine ⟨hi, hle, fun j => ?_⟩
  cases j with
  | zero => exact (if_neg (by omega)).symm
  | succ j =>
    rw [fromEnd?_succ, fromEnd?_succ, hlength, h, List.getElem?_set, length_toList]
    by_cases hj : j + 1 = i
    · rw [if_pos (by omega), if_pos (by omega), if_pos (by omega), if_pos hj]
    · by_cases hjl : j < s.length l
      · rw [if_pos hjl, if_neg (by omega), if_neg hj, if_pos hjl]
      · rw [if_neg hjl, if_neg hj, if_neg hjl]

/-- **The first element** is the one at the distance of the length. -/
theorem writesAt_setFront {s : Store α} {a : Nat} {c : Cell α} (hc : s.cell? a = some c) (x : α) :
    s.WritesAt (s.setFront (some a) x) (some a) (s.length (some a)) x := by
  have hlength : 1 ≤ s.length (some a) := by
    rw [length, addresses_some s hc]
    exact Nat.le_add_left 1 _
  have hc' : (s.setFront (some a) x).cell? a = some { c with elem := x } := by
    rw [setFront, cell?_modify, if_pos rfl, hc]
    rfl
  have hframe : Frame [a] s (s.setFront (some a) x) :=
    frame_modify s (List.mem_singleton_self a) fun _ => x
  have hrest : (s.setFront (some a) x).toList (older a c) = s.toList (older a c) := by
    rw [toList_eq_elems, hframe.addresses]
    exact s.elems_modify_of_not_mem (s.not_mem_addresses_older a c) _
  refine writesAt_of_set hlength (Nat.le_refl _) ?_
  rw [toList_some hc, Nat.sub_self, List.set_cons_zero, toList_some hc']
  exact congrArg (List.cons x) hrest

/-- Puts `y` in the place of the element that has `m` elements before it. -/
def putAt (m : Nat) (y : α) (before : List α) (x : α) : α × Option β :=
  (if before.length = m then y else x, none)

theorem replies_putAt (m : Nat) (y : α) (xs : List α) : ∀ before : List α,
    (replies (putAt (β := β) m y) before xs).map Prod.fst =
        (if before.length ≤ m then xs.set (m - before.length) y else xs) ∧
      ∀ r ∈ replies (putAt (β := β) m y) before xs, r.2 = none := by
  induction xs with
  | nil =>
    intro before
    refine ⟨?_, nofun⟩
    split
    · rfl
    · rfl
  | cons x xs ih =>
    intro before
    obtain ⟨hmap, hnone⟩ := ih (before ++ [x])
    rw [replies, List.map_cons, hmap, List.forall_mem_cons, List.length_append,
      List.length_singleton]
    refine ⟨?_, rfl, hnone⟩
    rcases Nat.lt_trichotomy before.length m with hlt | heq | hgt
    · obtain ⟨d, rfl⟩ : ∃ d, m = before.length + 1 + d := ⟨m - before.length - 1, by omega⟩
      rw [if_pos (by omega), if_pos (by omega), putAt, if_neg (by omega),
        show before.length + 1 + d - before.length = d + 1 by omega, List.set_cons_succ,
        Nat.add_sub_cancel_left]
    · rw [if_neg (by omega), if_pos (by omega), putAt, if_pos heq, heq, Nat.sub_self,
        List.set_cons_zero]
    · rw [if_neg (by omega), if_neg (by omega), putAt, if_neg (by omega)]

/-- **Every element of a list can be written** in a visit. -/
theorem writesAt_visit (s : Store α) (l : Link) {i : Nat} (hi : 1 ≤ i) (hle : i ≤ s.length l)
    (y : α) : s.WritesAt (s.visit (putAt (β := β) (s.length l - i) y) l).2 l i y := by
  obtain ⟨asked, rest, hsplit, hvisits, -, -⟩ := s.visit_spec (putAt (β := β) (s.length l - i) y) l
  obtain ⟨hmap, hnone⟩ := replies_putAt (β := β) (s.length l - i) y asked []
  -- Nobody answers, so all elements are asked.
  have hsilent : (s.visit (putAt (β := β) (s.length l - i) y) l).1 = none := by
    rw [hvisits.last]
    cases hlast : (replies (putAt (β := β) (s.length l - i) y) [] asked).getLast? with
    | none => rfl
    | some r => exact hnone r (List.mem_of_getLast? hlast)
  have hrest := hvisits.complete hsilent
  refine writesAt_of_set hi hle ?_
  rw [hvisits.elems, hmap, hsplit, hrest, List.append_nil, List.append_nil]
  exact if_pos (Nat.zero_le _)

end Store

namespace Shelf

open Store

/-! ### Actions -/

/-- What is done with the lists on a shelf. -/
inductive Action (α β : Type) where
  | create (g : String)
  | clone (g original : String)
  | push (g original : String) (x : α)
  | setFront (g : String) (x : α)
  | visit (g : String) (f : List α → α → α × Option β)
  | drop (g : String)

/-- The name under which a list is made or dropped. -/
def Action.binds? : Action α β → Option String
  | .create g | .clone g _ | .push g _ _ | .drop g => some g
  | .setFront .. | .visit .. => none

/-- The name of the list whose elements are written. -/
def Action.writes? : Action α β → Option String
  | .setFront g _ | .visit g _ => some g
  | .create _ | .clone .. | .push .. | .drop _ => none

/-- The shelf after an action.  One on a name without a list does nothing. -/
def apply (s : Shelf α) : Action α β → Shelf α
  | .create g => s.create g
  | .clone g original => match s.list? original with
    | some l => s.clone g l
    | none => s
  | .push g original x => match s.list? original with
    | some l => s.push g l x
    | none => s
  | .setFront g x => match s.list? g with
    | some l => s.setFront l x
    | none => s
  | .visit g f => match s.list? g with
    | some l => (s.visit f l).2
    | none => s
  | .drop g => s.drop g

/-- The shelf after actions. -/
def run (s : Shelf α) (actions : List (Action α β)) : Shelf α := actions.foldl apply s

variable {s : Shelf α} {g : String} {l : Link}

/-! ### One action -/

theorem Counted.create (h : s.Counted) (g : String) : (s.create g).Counted :=
  counted_put (Store.Counted.congr h fun _ => rfl) g

/-- Writing keeps the names, and changes elements of the written list only. -/
theorem Counted.frame_of_writes (h : s.Counted) {act : Action α β} (hact : act.writes? = some g)
    (hg : s.list? g = some l) : (s.apply act).lists = s.lists ∧
      Frame (s.store.addresses l) s.store (s.apply act).store ∧
      (s.apply act).store.cells.size = s.store.cells.size := by
  cases act with
  | create | clone | push | drop => cases hact
  | setFront g' x =>
    cases hact
    rw [apply, hg]
    cases l with
    | none => exact ⟨rfl, .refl _ _, rfl⟩
    | some a =>
      obtain ⟨c, hc⟩ := exists_cell_of_pos (h.pos hg a rfl)
      have ha : a ∈ s.store.addresses (some a) := by
        rw [addresses_some _ hc]
        exact List.mem_cons_self ..
      exact ⟨rfl, frame_modify s.store ha fun _ => x, Array.size_modify⟩
  | visit g' f =>
    cases hact
    rw [apply, hg]
    obtain ⟨-, -, -, -, hframe, hsize⟩ := s.store.visit_spec f l
    exact ⟨rfl, hframe, hsize⟩

theorem apply_of_writes_none {act : Action α β} (hact : act.writes? = some g)
    (hg : s.list? g = none) : s.apply act = s := by
  cases act with
  | create | clone | push | drop => cases hact
  | setFront g' x => cases hact; rw [apply, hg]
  | visit g' f => cases hact; rw [apply, hg]

theorem Counted.apply (h : s.Counted) (act : Action α β) : (s.apply act).Counted := by
  -- Writing keeps the counts, and every other action changes them with the handles.
  have hwrites : ∀ g, act.writes? = some g → (s.apply act).Counted := by
    intro g hact
    cases hg : s.list? g with
    | none =>
      rw [apply_of_writes_none hact hg]
      exact h
    | some l =>
      obtain ⟨hlists, hframe, -⟩ := h.frame_of_writes hact hg
      unfold Counted
      rw [hlists]
      exact Store.Counted.frame h hframe
  cases act with
  | create g => exact h.create g
  | clone g original =>
    rw [Shelf.apply]
    cases ho : s.list? original with
    | none => exact h
    | some l => exact h.clone (h.pos ho) g
  | push g original x =>
    rw [Shelf.apply]
    cases ho : s.list? original with
    | none => exact h
    | some l => exact h.push (h.pos ho) g x
  | setFront g x => exact hwrites g rfl
  | visit g f => exact hwrites g rfl
  | drop g => exact h.drop g

theorem grows_put (s : Shelf α) (g : String) (l : Link) : Grows s.store (s.put g l).store := by
  unfold put
  split
  · exact s.store.grows_release _
  · exact .refl _

theorem grows_drop (s : Shelf α) (g : String) : Grows s.store (s.drop g).store := by
  unfold drop
  split
  · exact s.store.grows_release _
  · exact .refl _

/-- **No action changes a link.** -/
theorem Counted.grows_apply (h : s.Counted) (act : Action α β) :
    Grows s.store (s.apply act).store := by
  have hwrites : ∀ g, act.writes? = some g → Grows s.store (s.apply act).store := by
    intro g hact
    cases hg : s.list? g with
    | none =>
      rw [apply_of_writes_none hact hg]
      exact .refl _
    | some l =>
      obtain ⟨-, hframe, hsize⟩ := h.frame_of_writes hact hg
      exact grows_frame hframe hsize
  cases act with
  | create g => exact s.grows_put g none
  | clone g original =>
    rw [Shelf.apply]
    cases s.list? original with
    | none => exact .refl _
    | some l => exact (s.store.grows_retain l).trans (grows_put ⟨s.store.retain l, s.lists⟩ g l)
  | push g original x =>
    rw [Shelf.apply]
    cases s.list? original with
    | none => exact .refl _
    | some l =>
      exact (s.store.grows_push l x).trans (grows_put ⟨(s.store.push l x).2, s.lists⟩ g _)
  | setFront g x => exact hwrites g rfl
  | visit g f => exact hwrites g rfl
  | drop g => exact s.grows_drop g

/-- **What an action may do** to the lists under other names. -/
theorem Counted.changes_apply (h : s.Counted) (act : Action α β) :
    Changes s (s.apply act) act.binds? := by
  have hsame : ∀ g, Changes s s (some g) := fun g => .binds fun hg _ => ⟨hg, rfl, rfl⟩
  have hwrites : ∀ g, act.writes? = some g → Changes s (s.apply act) none := by
    intro g hact
    cases hg : s.list? g with
    | none =>
      rw [apply_of_writes_none hact hg]
      exact .writes rfl (.refl [] _)
    | some l =>
      obtain ⟨hlists, hframe, -⟩ := h.frame_of_writes hact hg
      exact .writes hlists hframe
  cases act with
  | create g =>
    refine .binds fun {g' l} hg' hne => keeps_put (h.create g) ?_
    rw [list?_put, if_neg hne, hg']
  | clone g original =>
    rw [Shelf.apply]
    cases ho : s.list? original with
    | none => exact hsame g
    | some l => exact .binds fun hg' hne => h.keeps_clone (h.pos ho) hg' hne
  | push g original x =>
    rw [Shelf.apply]
    cases ho : s.list? original with
    | none => exact hsame g
    | some l => exact .binds fun hg' hne => h.keeps_push (h.pos ho) x hg' hne
  | setFront g x => exact hwrites g rfl
  | visit g f => exact hwrites g rfl
  | drop g => exact .binds fun hg' hne => h.keeps_drop hg' hne

/-! ### Histories -/

theorem Counted.run (h : s.Counted) (actions : List (Action α β)) : (s.run actions).Counted := by
  induction actions generalizing s with
  | nil => exact h
  | cons act actions ih => exact ih (h.apply act)

theorem Counted.grows_run (h : s.Counted) (actions : List (Action α β)) :
    Grows s.store (s.run actions).store := by
  induction actions generalizing s with
  | nil => exact .refl _
  | cons act actions ih => exact (h.grows_apply act).trans (ih (h.apply act))

theorem Counted.run_stays (h : s.Counted) (hg : s.list? g = some l) (actions : List (Action α β))
    (hactions : ∀ act ∈ actions, act.binds? ≠ some g) : SameCells g l s (s.run actions) :=
  sameCells_foldl (fun act h => h.apply act) (fun act h => h.changes_apply act) h hg actions hactions

/-! ### Lists share a suffix -/

/-- **What an action writes through one list shows in another** among the cells that the two share,
and nowhere else. -/
theorem Counted.writes_show (h : s.Counted) (hg : s.list? g = some l) {l' : Link} {k : Nat}
    (hshares : s.store.SharesLast l l' k) {act : Action α β} (hact : act.writes? = some g) :
    (∀ i ≤ k, (s.apply act).store.fromEnd? l' i = (s.apply act).store.fromEnd? l i) ∧
      (∀ i > k, (s.apply act).store.fromEnd? l' i = s.store.fromEnd? l' i) ∧
      ∀ i y, s.store.WritesAt (s.apply act).store l i y →
        (i ≤ k → s.store.WritesAt (s.apply act).store l' i y) ∧
          (k < i → (s.apply act).store.toList l' = s.store.toList l') := by
  obtain ⟨-, hframe, -⟩ := h.frame_of_writes hact hg
  have hshares' := hshares.congr (hframe.addresses l) (hframe.addresses l')
  exact ⟨fun i hi => hshares'.fromEnd?_of_le hi, fun i hi => hshares.fromEnd?_of_lt hframe hi,
    fun i y hw => hshares.writesAt hframe hw⟩

theorem Counted.writesAt_apply_setFront (h : s.Counted) (hg : s.list? g = some l) (x : α)
    (hlength : 1 ≤ s.store.length l) :
    s.store.WritesAt (s.apply (.setFront (β := β) g x)).store l (s.store.length l) x := by
  rw [Shelf.apply, hg]
  cases l with
  | none =>
    rw [length, addresses_none] at hlength
    cases hlength
  | some a =>
    obtain ⟨c, hc⟩ := exists_cell_of_pos (h.pos hg a rfl)
    exact writesAt_setFront hc x

theorem exists_writesAt_apply_visit (hg : s.list? g = some l) {i : Nat} (hi : 1 ≤ i)
    (hle : i ≤ s.store.length l) (y : α) :
    ∃ f, s.store.WritesAt (s.apply (.visit (β := β) g f)).store l i y := by
  refine ⟨putAt (s.store.length l - i) y, ?_⟩
  rw [apply, hg]
  exact writesAt_visit s.store l hi hle y

/-- **Lists share exactly a suffix.**  After every history:

* a link leads to an older cell that is there, and further actions do not change it;
* following the links from a list comes to an end after the cells of the list, and the list keeps
  them, and its length with them, as long as no action makes or drops it;
* going through a list, to look for an element or to change elements, asks the elements from front
  to back, each of them once, and stops at the first one that answers; those after it are not asked
  and stay as they are, and looking for an element changes nothing;
* for two lists there is a number `k`, the same as long as no action makes or drops one of them,
  such that their last `k` cells are the same and no others; what is written through the one list
  then shows in the other at the same distance from the end, if that is at most `k`, and everything
  else in the other is unchanged.  In this way each element of a list can be written. -/
theorem lists_share_a_suffix (history : List (Action α β)) :
    let s := run ({} : Shelf α) history
    (∀ a c b, s.store.cell? a = some c → c.next = some b →
      b < a ∧ ∃ d, s.store.cell? b = some d) ∧
    (∀ further : List (Action α β), Grows s.store (s.run further).store) ∧
    (∀ g l, s.list? g = some l →
      s.store.Chain l (s.store.addresses l) ∧ (s.store.toList l).length = s.store.length l ∧
      ∀ further : List (Action α β), (∀ act ∈ further, act.binds? ≠ some g) →
        SameCells g l s (s.run further) ∧ (s.run further).store.length l = s.store.length l) ∧
    (∀ g l, s.list? g = some l →
      (∀ f : List α → α → α × Option β, ∃ asked rest, s.store.toList l = asked ++ rest ∧
        Visits f [] asked rest ((s.store.visit f l).2.toList l) (s.store.visit f l).1 ∧
        Frame (s.store.addresses l) s.store (s.store.visit f l).2) ∧
      (∀ f : List α → α → α × Option β, (∀ before x, (f before x).1 = x) →
        (s.store.visit f l).2 = s.store) ∧
      (∀ f : α → α × Option β, s.update f l = s.visit (fun _ => f) l ∧
        ∀ asked rest ys answer, s.store.toList l = asked ++ rest →
          Visits (fun _ => f) [] asked rest ys answer →
          s.store.visited (fun x => (f x).2) l = asked.length) ∧
      ∀ f : α → Option β, (s.store.find? f l, s.store) = s.store.visit (fun _ x => (x, f x)) l) ∧
    ∀ g g' l l', s.list? g = some l → s.list? g' = some l' →
      ∃ k, ∀ further : List (Action α β),
        (∀ act ∈ further, act.binds? ≠ some g ∧ act.binds? ≠ some g') →
        let s₁ := s.run further
        s₁.store.SharesLast l l' k ∧
        (∀ act : Action α β, act.writes? = some g →
          let s₂ := s₁.apply act
          (∀ i ≤ k, s₂.store.fromEnd? l' i = s₂.store.fromEnd? l i) ∧
          (∀ i > k, s₂.store.fromEnd? l' i = s₁.store.fromEnd? l' i) ∧
          ∀ i y, s₁.store.WritesAt s₂.store l i y →
            (i ≤ k → s₁.store.WritesAt s₂.store l' i y) ∧
            (k < i → s₂.store.toList l' = s₁.store.toList l')) ∧
        (∀ x, 1 ≤ s₁.store.length l →
          s₁.store.WritesAt (s₁.apply (.setFront (β := β) g x)).store l (s₁.store.length l) x) ∧
        ∀ i y, 1 ≤ i → i ≤ s₁.store.length l →
          ∃ f, s₁.store.WritesAt (s₁.apply (.visit (β := β) g f)).store l i y := by
  intro s
  have h : s.Counted := counted_empty.run history
  refine ⟨fun a c b => Store.Counted.link_older h, h.grows_run,
    fun g l hg => ⟨Store.Counted.chain h l (h.pos hg), s.store.length_toList l, ?_⟩,
    fun g l _ => ⟨fun f => ?_, fun f hf => visitAt_of_keeps hf _ _ _,
      fun f => ⟨s.update_eq_visit f l, fun asked rest ys answer hsplit hvisits => ?_⟩,
      fun f => s.store.find?_eq_visit f l⟩, ?_⟩
  · intro further hfurther
    have hstays := h.run_stays hg further hfurther
    exact ⟨hstays, congrArg List.length hstays.addresses⟩
  · obtain ⟨asked, rest, hsplit, hvisits, hframe, -⟩ := s.store.visit_spec f l
    exact ⟨asked, rest, hsplit, hvisits, hframe⟩
  · rw [visited, hsplit]
    exact hvisits.length_asked
  · intro g g' l l' hg hg'
    obtain ⟨k, hk⟩ := s.store.exists_sharesLast l l'
    refine ⟨k, fun further hfurther => ?_⟩
    intro s₁
    have h₁ : s₁.Counted := h.run further
    have hl := h.run_stays hg further fun act hact => (hfurther act hact).1
    have hl' := h.run_stays hg' further fun act hact => (hfurther act hact).2
    have hshares : s₁.store.SharesLast l l' k := hk.congr hl.addresses hl'.addresses
    exact ⟨hshares, fun act hact => h₁.writes_show hl.list hshares hact,
      fun x hlength => h₁.writesAt_apply_setFront hl.list x hlength,
      fun i y hi hle => exists_writesAt_apply_visit hl.list hi hle y⟩

/-- Two lists with a common rest, made from a list that is dropped. -/
def branching : List (Action Nat Unit) :=
  [.create "a", .push "a" "a" 1, .push "a" "a" 2, .push "b" "a" 3, .push "c" "a" 4, .drop "a"]

/-- The two lists share two cells.  What is written through the one at distance two shows in the
other there, and what is written at distance three does not. -/
theorem lists_share_a_suffix_branches :
    let s := run {} branching
    s.list? "b" = some (some 2) ∧ s.list? "c" = some (some 3) ∧
      s.store.SharesLast (some 2) (some 3) 2 ∧
      (∃ f, s.store.WritesAt (s.apply (.visit (β := Unit) "b" f)).store (some 3) 2 7) ∧
      (s.apply (.setFront (β := Unit) "b" 7)).store.toList (some 3) = s.store.toList (some 3) := by
  intro s
  obtain ⟨hb, hc, hcells, hcells'⟩ : s.list? "b" = some (some 2) ∧ s.list? "c" = some (some 3) ∧
      s.store.addresses (some 2) = [2, 1, 0] ∧ s.store.addresses (some 3) = [3, 1, 0] :=
    show (run {} branching).list? "b" = _ ∧ _ by decide +kernel
  obtain ⟨-, -, -, -, hpairs⟩ := lists_share_a_suffix branching
  obtain ⟨k, hk⟩ := hpairs "b" "c" (some 2) (some 3) hb hc
  obtain ⟨hshares, hwrites, hfront, hvisit⟩ := hk [] nofun
  have hlength : s.store.length (some 2) = 3 := by
    rw [length, hcells]
    rfl
  have hk : k = 2 := by
    obtain ⟨own, own', common, hl, hl', rfl, hown, -⟩ := hshares
    have hl : [2, 1, 0] = own ++ common := hcells.symm.trans hl
    have hl' : [3, 1, 0] = own' ++ common := hcells'.symm.trans hl'
    have hown : ∀ a ∈ own, a ∉ [3, 1, 0] := fun a ha => hcells' ▸ hown a ha
    -- The first list has one cell of its own, not none and not two.
    rcases own with _ | ⟨a, _ | ⟨b, own⟩⟩
    · cases hl
      have hlast := congrArg (fun as => as.reverse[2]?) hl'
      simp at hlast
    · cases hl
      rfl
    · have hb : 1 = b := (List.cons.inj (List.cons.inj hl).2).1
      exact absurd (hb ▸ by decide) (hown b (by simp))
  subst hk
  obtain ⟨f, hf⟩ := hvisit 2 7 (by decide) (hlength ▸ by decide)
  have hf' := hfront 7 (hlength ▸ by decide)
  refine ⟨hb, hc, hshares, ⟨f, ((hwrites _ rfl).2.2 2 7 hf).1 (Nat.le_refl 2)⟩, ?_⟩
  exact ((hwrites _ rfl).2.2 _ 7 hf').2 (hlength ▸ by decide)

end Shelf

end SharedList

end Lox
