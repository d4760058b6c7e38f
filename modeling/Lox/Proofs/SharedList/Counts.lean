import Lox.Proofs.SharedList.Frame
import Lox.SharedList.Shelf
import Mathlib.Data.Finset.Card

/-!
# Counts of holders

A store is *counted* when the count of every cell is the number of its handles, which are the lists
that start there, and of the cells that link to it.  A cell that nobody holds is not there, and
links lead to older cells.

Taking one more handle, putting a new cell before a list and writing elements keep a store counted.
So does letting go of a list: a cell that is cleared away passes the handle that was on it on to the
cell after it (`Counted.erase`), and that is all that the recursion of `release` needs
(`Counted.release`).  Since what is held has a count, a list with a handle keeps its cells and its
elements when others are let go (`Counted.toList_eq`).

A shelf is counted when its names are the handles.
-/

namespace Lox

namespace SharedList

namespace Store

variable {α : Type} {s s' : Store α} {handles : Nat → Nat} {l : Link}

/-! ### Who holds a cell -/

/-- The cells that link to the one at an address. -/
def linking (s : Store α) (a : Nat) : Finset Nat :=
  (Finset.range s.cells.size).filter fun b => (s.cell? b).bind Cell.next = some a

/-- The count at an address, where a cell that is not there has no holders. -/
def holdersAt (s : Store α) (a : Nat) : Nat := (s.cell? a).elim 0 Cell.holders

/-- One handle, on the first cell of a list. -/
def one (l : Link) (a : Nat) : Nat := if l = some a then 1 else 0

/-- The counts are right, for so many handles on each cell. -/
structure Counted (s : Store α) (handles : Nat → Nat) : Prop where
  older : ∀ {a c}, s.cell? a = some c → older a c = c.next
  pos : ∀ {a c}, s.cell? a = some c → 1 ≤ c.holders
  count : ∀ a, s.holdersAt a = handles a + (s.linking a).card

theorem mem_linking {a b : Nat} : b ∈ s.linking a ↔ (s.cell? b).bind Cell.next = some a := by
  rw [linking, Finset.mem_filter, Finset.mem_range]
  refine ⟨And.right, fun h => ⟨?_, h⟩⟩
  obtain ⟨c, hc, -⟩ := Option.bind_eq_some_iff.mp h
  exact lt_size_of_cell? hc

theorem linking_congr
    (h : ∀ b, (s'.cell? b).map Cell.next = (s.cell? b).map Cell.next) (a : Nat) :
    s'.linking a = s.linking a := by
  ext b
  have hnext : (s'.cell? b).bind Cell.next = (s.cell? b).bind Cell.next := by
    simpa only [Option.bind_map, Function.id_comp] using congrArg (Option.bind · id) (h b)
  rw [mem_linking, mem_linking, hnext]

theorem holdersAt_of_cell? {a : Nat} {c : Cell α} (h : s.cell? a = some c) :
    s.holdersAt a = c.holders := by
  rw [holdersAt, h]
  rfl

theorem holdersAt_of_cell?_none {a : Nat} (h : s.cell? a = none) : s.holdersAt a = 0 := by
  rw [holdersAt, h]
  rfl

theorem holdersAt_congr {a : Nat} (h : s'.cell? a = s.cell? a) : s'.holdersAt a = s.holdersAt a := by
  rw [holdersAt, holdersAt, h]

@[simp]
theorem one_none (a : Nat) : one none a = 0 := rfl

@[simp]
theorem one_self (a : Nat) : one (some a) a = 1 := if_pos rfl

theorem one_of_ne {a : Nat} (h : l ≠ some a) : one l a = 0 := if_neg h

theorem card_eq_add_one {β : Type} [DecidableEq β] {S S' : Finset β} {n : β} {a : Nat} (hn : n ∉ S)
    (h : ∀ b, b ∈ S' ↔ b = n ∧ l = some a ∨ b ∈ S) : S'.card = S.card + one l a := by
  by_cases hl : l = some a
  · have hinsert : S' = insert n S := by
      ext b
      simp [h b, hl]
    rw [hinsert, Finset.card_insert_of_notMem hn, hl, one_self]
  · have hsame : S' = S := by
      ext b
      simp [h b, hl]
    rw [hsame, one_of_ne hl, Nat.add_zero]

/-- **What is held is there.** -/
theorem exists_cell_of_pos {a : Nat} (h : 0 < s.holdersAt a) : ∃ c, s.cell? a = some c := by
  cases hc : s.cell? a with
  | none => rw [holdersAt_of_cell?_none hc] at h; cases h
  | some c => exact ⟨c, rfl⟩

theorem Counted.pos_of_next (h : Counted s handles) {a b : Nat} {c : Cell α}
    (hc : s.cell? a = some c) (hb : c.next = some b) : 0 < s.holdersAt b := by
  have hmem : a ∈ s.linking b := by
    rw [mem_linking, hc]
    exact hb
  rw [h.count b]
  exact Nat.lt_add_left _ (Finset.card_pos.mpr ⟨a, hmem⟩)

theorem Counted.pos_of_handle (h : Counted s handles) (hl : ∀ a, l = some a → 0 < handles a) :
    ∀ a, l = some a → 0 < s.holdersAt a := by
  intro a ha
  rw [h.count a]
  exact Nat.add_pos_left (hl a ha) _

theorem Counted.congr {handles' : Nat → Nat} (h : Counted s handles)
    (heq : ∀ a, handles' a = handles a) : Counted s handles' :=
  ⟨h.older, h.pos, fun a => by rw [heq a]; exact h.count a⟩

/-! ### What keeps the counts right -/

theorem Counted.frame {as : List Nat} (h : Counted s handles) (hf : Frame as s s') :
    Counted s' handles := by
  -- A cell has the link and the count that it had.
  have hcell : ∀ {a c'}, s'.cell? a = some c' →
      ∃ c, s.cell? a = some c ∧ c.next = c'.next ∧ c.holders = c'.holders := by
    intro a c' hc'
    have hshape := hf.shape a
    rw [hc', Option.map_some, eq_comm, Option.map_eq_some_iff] at hshape
    obtain ⟨c, hc, heq⟩ := hshape
    exact ⟨c, hc, congrArg Prod.fst heq, congrArg Prod.snd heq⟩
  refine ⟨fun {a c'} hc' => ?_, fun {a c'} hc' => ?_, fun a => ?_⟩
  · obtain ⟨c, hc, hnext, -⟩ := hcell hc'
    have hold := h.older hc
    unfold Store.older at hold ⊢
    rwa [← hnext]
  · obtain ⟨c, hc, -, hholders⟩ := hcell hc'
    rw [← hholders]
    exact h.pos hc
  · have hlinking : s'.linking a = s.linking a := by
      refine linking_congr (fun b => ?_) a
      have hshape := congrArg (Option.map Prod.fst) (hf.shape b)
      rwa [Option.map_map, Option.map_map] at hshape
    have hholders : s'.holdersAt a = s.holdersAt a := by
      cases hc : s.cell? a with
      | none => rw [holdersAt_of_cell?_none hc, holdersAt_of_cell?_none (hf.cell?_eq_none hc)]
      | some c =>
        obtain ⟨x, hx⟩ := hf.exists_cell hc
        rw [holdersAt_of_cell? hc, holdersAt_of_cell? hx]
    rw [hholders, hlinking, h.count a]

/-- A count that changes in step with the handles. -/
theorem Counted.recount {handles' : Nat → Nat} {a : Nat} {c : Cell α} {n : Nat}
    (h : Counted s handles) (hc : s.cell? a = some c) (hn : 1 ≤ n)
    (hthis : n + handles a = c.holders + handles' a) (hother : ∀ b, b ≠ a → handles' b = handles b)
    (f : Cell α → Cell α) (hf : ∀ c, (f c).next = c.next) (hfc : (f c).holders = n) :
    Counted (s.modify a f) handles' := by
  have hcell : (s.modify a f).cell? a = some (f c) := by
    rw [cell?_modify, if_pos rfl, hc]
    rfl
  have hne : ∀ b, b ≠ a → (s.modify a f).cell? b = s.cell? b := by
    intro b hb
    rw [cell?_modify, if_neg hb]
  have hlinking : ∀ b, (s.modify a f).linking b = s.linking b := by
    refine linking_congr fun b => ?_
    by_cases hb : b = a
    · rw [hb, hcell, hc, Option.map_some, Option.map_some, hf]
    · rw [hne b hb]
  refine ⟨fun {b c'} hc' => ?_, fun {b c'} hc' => ?_, fun b => ?_⟩
  · by_cases hb : b = a
    · rw [hb, hcell] at hc'
      cases hc'
      have hold := h.older hc
      unfold Store.older at hold ⊢
      rw [hb, hf, hold]
    · rw [hne b hb] at hc'
      exact h.older hc'
  · by_cases hb : b = a
    · rw [hb, hcell] at hc'
      cases hc'
      rw [hfc]
      exact hn
    · rw [hne b hb] at hc'
      exact h.pos hc'
  · rw [hlinking b]
    by_cases hb : b = a
    · have hcount := h.count a
      rw [holdersAt_of_cell? hc] at hcount
      rw [hb, holdersAt_of_cell? hcell, hfc]
      omega
    · rw [holdersAt_congr (hne b hb), h.count b, hother b hb]

theorem Counted.retain (h : Counted s handles) (hl : ∀ a, l = some a → 0 < s.holdersAt a) :
    Counted (s.retain l) fun a => handles a + one l a := by
  cases l with
  | none => exact h
  | some a =>
    obtain ⟨c, hc⟩ := exists_cell_of_pos (hl a rfl)
    refine h.recount hc (n := c.holders + 1) (Nat.le_add_left 1 _) ?_ ?_ _ (fun _ => rfl) rfl
    · simp only [one_self]
      omega
    · intro b hb
      rw [one_of_ne (fun he => hb (Option.some.inj he).symm), Nat.add_zero]

theorem cell?_cons (s : Store α) (c : Cell α) (b : Nat) :
    (⟨s.cells.push (some c)⟩ : Store α).cell? b = if b = s.cells.size then some c else s.cell? b := by
  unfold cell?
  rw [Array.getElem?_push]
  split
  · rfl
  · rfl

theorem card_linking_cons (s : Store α) (c : Cell α) (a : Nat) :
    ((⟨s.cells.push (some c)⟩ : Store α).linking a).card = (s.linking a).card + one c.next a := by
  refine card_eq_add_one (n := s.cells.size) ?_ fun b => ?_
  · rw [mem_linking, cell?_size]
    exact fun h => nomatch h
  · rw [mem_linking, mem_linking, cell?_cons]
    by_cases hb : b = s.cells.size
    · simp [hb, cell?_size]
    · simp [hb]

/-- **A new cell** takes over a handle on the list after it, and has one itself. -/
theorem Counted.cons (h : Counted s fun a => handles a + one l a) (x : α) :
    Counted ⟨s.cells.push (some ⟨x, l, 1⟩)⟩ fun a => handles a + one (some s.cells.size) a := by
  refine ⟨fun {b c'} hc' => ?_, fun {b c'} hc' => ?_, fun b => ?_⟩
  · rw [cell?_cons] at hc'
    split at hc'
    case isTrue hb =>
      cases hc'
      refine older_eq fun a ha => ?_
      have hcount := h.count a
      simp only [show l = some a from ha, one_self] at hcount
      obtain ⟨c, hc⟩ := exists_cell_of_pos (s := s) (a := a) (by omega)
      rw [hb]
      exact lt_size_of_cell? hc
    case isFalse => exact h.older hc'
  · rw [cell?_cons] at hc'
    split at hc'
    case isTrue hb =>
      cases hc'
      exact Nat.le_refl 1
    case isFalse => exact h.pos hc'
  · have hcard := s.card_linking_cons ⟨x, l, 1⟩ b
    have hcount := h.count b
    by_cases hb : b = s.cells.size
    · rw [hb, holdersAt_of_cell?_none s.cell?_size] at hcount
      rw [hb] at hcard ⊢
      rw [holdersAt_of_cell? (c := ⟨x, l, 1⟩) (by rw [cell?_cons, if_pos rfl]), one_self]
      simp only at hcard ⊢
      omega
    · rw [holdersAt_congr (s := s) (by rw [cell?_cons, if_neg hb]),
        one_of_ne (fun he => hb (Option.some.inj he).symm)]
      simp only at hcard
      omega

theorem Counted.push (h : Counted s handles) (hl : ∀ a, l = some a → 0 < s.holdersAt a) (x : α) :
    Counted (s.push l x).2 fun a => handles a + one (s.push l x).1 a := by
  have hcons := (h.retain hl).cons x
  rwa [size_retain] at hcons

/-- The lists that were there have the cells and elements that they had. -/
theorem toList_push (s : Store α) (l : Link) (x : α) {l' : Link} (hl' : reach l' ≤ s.cells.size) :
    (s.push l x).2.addresses l' = s.addresses l' ∧ (s.push l x).2.toList l' = s.toList l' := by
  refine toList_congr (fun b hb => ?_) l' hl'
  rw [cell?_push, if_neg (Nat.ne_of_lt hb), map_cell?_retain]

/-- **The new list has a new cell before the cells of the other one.** -/
theorem toList_push_new (s : Store α) (l : Link) (x : α) (hl : reach l ≤ s.cells.size) :
    (s.push l x).2.addresses (s.push l x).1 = s.cells.size :: s.addresses l ∧
      (s.push l x).2.toList (s.push l x).1 = x :: s.toList l := by
  have hcell : (s.push l x).2.cell? s.cells.size = some ⟨x, l, 1⟩ := by
    rw [cell?_push, if_pos rfl]
  have hnext : Store.older s.cells.size (⟨x, l, 1⟩ : Cell α) = l :=
    older_eq (by rintro b rfl; exact hl)
  obtain ⟨haddr, hlist⟩ := s.toList_push l x hl
  rw [show (s.push l x).1 = some s.cells.size from rfl, addresses_some _ hcell, toList_some hcell,
    hnext, haddr, hlist]
  exact ⟨rfl, rfl⟩

theorem reach_le_of_pos (hl : ∀ a, l = some a → 0 < s.holdersAt a) : reach l ≤ s.cells.size := by
  cases l with
  | none => exact Nat.zero_le _
  | some a =>
    obtain ⟨c, hc⟩ := exists_cell_of_pos (hl a rfl)
    exact lt_size_of_cell? hc

/-! ### Letting go -/

theorem card_linking_erase {a : Nat} {c : Cell α} (hc : s.cell? a = some c) (b : Nat) :
    (s.linking b).card = ((s.erase a).linking b).card + one c.next b := by
  refine card_eq_add_one (n := a) ?_ fun d => ?_
  · rw [mem_linking, cell?_erase, if_pos rfl]
    exact fun h => nomatch h
  · rw [mem_linking, mem_linking, cell?_erase]
    by_cases hd : d = a
    · simp [hd, hc]
    · simp [hd]

/-- **A cell whose only holder lets go** is cleared away and passes that handle on. -/
theorem Counted.erase {a : Nat} {c : Cell α} (h : Counted s fun b => handles b + one (some a) b)
    (hc : s.cell? a = some c) (hlast : c.holders ≤ 1) :
    Counted (s.erase a) fun b => handles b + one c.next b := by
  have hcell : ∀ {b c'}, (s.erase a).cell? b = some c' → s.cell? b = some c' := by
    intro b c' hc'
    rw [cell?_erase] at hc'
    split at hc'
    · cases hc'
    · exact hc'
  refine ⟨fun hc' => h.older (hcell hc'), fun hc' => h.pos (hcell hc'), fun b => ?_⟩
  have hcard := card_linking_erase hc b
  have hcount := h.count b
  by_cases hb : b = a
  · have hself : c.next ≠ some a := by
      intro he
      have hlt := reach_older_le a c
      rw [h.older hc, he] at hlt
      exact absurd hlt (Nat.not_succ_le_self a)
    rw [hb] at hcard hcount ⊢
    rw [one_of_ne hself] at hcard ⊢
    rw [holdersAt_of_cell? hc, one_self] at hcount
    rw [holdersAt_of_cell?_none (by rw [cell?_erase, if_pos rfl])]
    omega
  · rw [one_of_ne (fun he => hb (Option.some.inj he).symm)] at hcount
    rw [holdersAt_congr (s := s) (by rw [cell?_erase, if_neg hb])]
    omega

/-- **Letting go of a list** takes one handle away. -/
theorem Counted.release (h : Counted s fun a => handles a + one l a) :
    Counted (s.release l) handles := by
  fun_induction Store.release s l with
  | case1 s => exact h
  | case2 s a hc =>
    have hcount := h.count a
    rw [holdersAt_of_cell?_none hc, one_self] at hcount
    omega
  | case3 s a c hc hlast ih =>
    have hold := h.older hc
    rw [hold] at ih ⊢
    exact ih (h.erase hc hlast)
  | case4 s a c hc hmore =>
    refine h.recount hc (n := c.holders - 1) (by omega) ?_ ?_ _ (fun _ => rfl) rfl
    · simp only [one_self]
      omega
    · intro b hb
      rw [one_of_ne (fun he => hb (Option.some.inj he).symm), Nat.add_zero]

/-- The cells of `s'` are cells of `s`, with the elements and links that they have there. -/
def Within (s' s : Store α) : Prop :=
  ∀ {a c'}, s'.cell? a = some c' → ∃ c, s.cell? a = some c ∧ c.elem = c'.elem ∧ c.next = c'.next

theorem within_release (s : Store α) (l : Link) : Within (s.release l) s := by
  fun_induction Store.release s l with
  | case1 s => exact fun hc => ⟨_, hc, rfl, rfl⟩
  | case2 s a => exact fun hc => ⟨_, hc, rfl, rfl⟩
  | case3 s a c hc hlast ih =>
    intro b c' hc'
    obtain ⟨d, hd, heq⟩ := ih hc'
    rw [cell?_erase] at hd
    split at hd
    · cases hd
    · exact ⟨d, hd, heq⟩
  | case4 s a c hc hmore =>
    intro b c' hc'
    rw [cell?_modify] at hc'
    split at hc'
    · obtain ⟨d, hd, rfl⟩ := Option.map_eq_some_iff.mp hc'
      exact ⟨d, hd, rfl, rfl⟩
    · exact ⟨c', hc', rfl, rfl⟩

/-- **A list that is still held keeps its cells and their elements** when others are let go. -/
theorem Counted.toList_eq (h : Counted s' handles) (hw : Within s' s) :
    ∀ l : Link, (∀ a, l = some a → 0 < s'.holdersAt a) →
      s'.addresses l = s.addresses l ∧ s'.toList l = s.toList l := by
  intro l
  induction hr : reach l using Nat.strongRecOn generalizing l with
  | ind r ih =>
    intro hl
    cases l with
    | none => exact ⟨by rw [addresses_none, addresses_none], by simp [toList]⟩
    | some a =>
      obtain ⟨c', hc'⟩ := exists_cell_of_pos (hl a rfl)
      obtain ⟨c, hc, helem, hnext⟩ := hw hc'
      have hold : Store.older a c = Store.older a c' := by
        unfold Store.older
        rw [hnext]
      have hlt := reach_older_lt a c'
      obtain ⟨haddr, hlist⟩ := ih _ (by simp only [reach] at hr; omega) (Store.older a c') rfl
        fun b hb => h.pos_of_next hc' (by rw [← h.older hc']; exact hb)
      rw [addresses_some s' hc', addresses_some s hc, toList_some hc', toList_some hc, hold, helem,
        haddr, hlist]
      exact ⟨rfl, rfl⟩

end Store

/-! ### Shelves -/

namespace Shelf

open Store

variable {α : Type} {s : Shelf α} {lists : Std.TreeMap String Link} {name : String} {l : Link}

/-- The names of the lists that start at an address. -/
def namesOf (lists : Std.TreeMap String Link) (a : Nat) : Finset String :=
  lists.keys.toFinset.filter fun name => lists[name]? = some (some a)

/-- The number of names of the lists that start at an address. -/
def handles (lists : Std.TreeMap String Link) (a : Nat) : Nat := (namesOf lists a).card

/-- The names are the handles. -/
def Counted (s : Shelf α) : Prop := s.store.Counted (handles s.lists)

theorem mem_namesOf {a : Nat} : name ∈ namesOf lists a ↔ lists[name]? = some (some a) := by
  rw [namesOf, Finset.mem_filter, List.mem_toFinset, Std.TreeMap.mem_keys]
  refine ⟨And.right, fun h => ⟨?_, h⟩⟩
  exact Std.TreeMap.mem_iff_isSome_getElem?.mpr (by rw [h]; rfl)

theorem handles_erase (lists : Std.TreeMap String Link) (name : String) (a : Nat) :
    handles lists a = handles (lists.erase name) a + one lists[name]?.join a := by
  refine card_eq_add_one (n := name) ?_ fun other => ?_
  · rw [mem_namesOf, Std.TreeMap.getElem?_erase]
    simp
  · rw [mem_namesOf, mem_namesOf, Std.TreeMap.getElem?_erase]
    by_cases h : other = name
    · simp [h, Option.join_eq_some_iff]
    · simp [h, Ne.symm h]

/-- The handles with a list under a name, in the place of the one that had it. -/
theorem handles_insert (lists : Std.TreeMap String Link) (name : String) (l : Link) (a : Nat) :
    handles (lists.insert name l) a = handles (lists.erase name) a + one l a := by
  refine card_eq_add_one (n := name) ?_ fun other => ?_
  · rw [mem_namesOf, Std.TreeMap.getElem?_erase]
    simp
  · rw [mem_namesOf, mem_namesOf, Std.TreeMap.getElem?_insert, Std.TreeMap.getElem?_erase]
    by_cases h : other = name
    · simp [h]
    · simp [h, Ne.symm h]

theorem pos_handles (h : lists[name]? = some l) : ∀ a, l = some a → 0 < handles lists a := by
  rintro a rfl
  exact Finset.card_pos.mpr ⟨name, mem_namesOf.mpr h⟩

theorem Counted.pos (hs : s.Counted) (h : s.list? name = some l) :
    ∀ a, l = some a → 0 < s.store.holdersAt a :=
  hs.pos_of_handle (pos_handles h)

theorem counted_empty : ({} : Shelf α).Counted := by
  have hcell : ∀ a, ({} : Store α).cell? a = none := fun _ => rfl
  refine ⟨fun {a c} hc => ?_, fun {a c} hc => ?_, fun a => ?_⟩
  · cases (hcell a).symm.trans hc
  · cases (hcell a).symm.trans hc
  · have hnames : namesOf {} a = ∅ := by
      ext name
      rw [mem_namesOf, Std.TreeMap.getElem?_emptyc]
      simp
    have hlinks : linking ({} : Store α) a = ∅ := rfl
    rw [holdersAt_of_cell?_none (hcell a), handles, hnames, hlinks]
    rfl

@[simp]
theorem list?_put (s : Shelf α) (name : String) (l : Link) (other : String) :
    (s.put name l).list? other = if other = name then some l else s.list? other := by
  have hlists : (s.put name l).lists = s.lists.insert name l := by
    unfold put
    split
    · rfl
    · rfl
  rw [list?, hlists, Std.TreeMap.getElem?_insert]
  by_cases h : other = name
  · simp [h]
  · simp [h, Ne.symm h, list?]

@[simp]
theorem list?_push (s : Shelf α) (name : String) (l : Link) (x : α) (other : String) :
    (s.push name l x).list? other =
      if other = name then some (some s.store.cells.size) else s.list? other :=
  list?_put ⟨(s.store.push l x).2, s.lists⟩ name _ other

@[simp]
theorem list?_clone (s : Shelf α) (name : String) (l : Link) (other : String) :
    (s.clone name l).list? other = if other = name then some l else s.list? other :=
  list?_put ⟨s.store.retain l, s.lists⟩ name l other

@[simp]
theorem list?_drop (s : Shelf α) (name other : String) :
    (s.drop name).list? other = if other = name then none else s.list? other := by
  unfold drop
  split
  case h_1 old hold =>
    rw [list?, Std.TreeMap.getElem?_erase]
    by_cases h : other = name
    · simp [h]
    · simp [h, Ne.symm h, list?]
  case h_2 hnone =>
    by_cases h : other = name
    · rw [if_pos h, h]
      exact hnone
    · rw [if_neg h]

theorem within_put (s : Shelf α) (name : String) (l : Link) :
    Within (s.put name l).store s.store := by
  unfold put
  split
  · exact s.store.within_release _
  · exact fun hc => ⟨_, hc, rfl, rfl⟩

theorem within_drop (s : Shelf α) (name : String) : Within (s.drop name).store s.store := by
  unfold drop
  split
  · exact s.store.within_release _
  · exact fun hc => ⟨_, hc, rfl, rfl⟩

/-- **Putting a list under a name** uses a handle on it. -/
theorem counted_put {s : Shelf α} (h : s.store.Counted fun a => handles s.lists a + one l a)
    (name : String) : (s.put name l).Counted := by
  unfold Counted put
  split
  case h_1 old hold =>
    refine Store.Counted.release (h.congr fun a => ?_)
    simp only [handles_insert, handles_erase s.lists name, hold, Option.join_some]
    omega
  case h_2 hnone =>
    refine h.congr fun a => ?_
    simp only [handles_insert, handles_erase s.lists name, hnone, Option.join_none, one_none]
    omega

theorem Counted.drop (h : s.Counted) (name : String) : (s.drop name).Counted := by
  unfold Counted Shelf.drop
  split
  case h_1 old hold =>
    refine Store.Counted.release (Store.Counted.congr h fun a => ?_)
    rw [handles_erase s.lists name, hold, Option.join_some]
  case h_2 => exact h

theorem Counted.clone (h : s.Counted) (hl : ∀ a, l = some a → 0 < s.store.holdersAt a)
    (name : String) : (s.clone name l).Counted :=
  counted_put (s := ⟨s.store.retain l, s.lists⟩) (Store.Counted.retain h hl) name

theorem Counted.push (h : s.Counted) (hl : ∀ a, l = some a → 0 < s.store.holdersAt a)
    (name : String) (x : α) : (s.push name l x).Counted :=
  counted_put (s := ⟨(s.store.push l x).2, s.lists⟩) (Store.Counted.push h hl x) name

/-! ### Lists that keep their names -/

/-- The list is under the name in `s'`, with the cells and elements that it has in `s`. -/
structure Keeps (name : String) (l : Link) (s s' : Shelf α) : Prop where
  list : s'.list? name = some l
  addresses : s'.store.addresses l = s.store.addresses l
  toList : s'.store.toList l = s.store.toList l

theorem keeps_put {other : String} {l' : Link} (h : (s.put name l).Counted)
    (hother : (s.put name l).list? other = some l') : Keeps other l' s (s.put name l) := by
  obtain ⟨haddr, hlist⟩ := Store.Counted.toList_eq h (s.within_put name l) l' (h.pos hother)
  exact ⟨hother, haddr, hlist⟩

section

variable {other : String} {l' : Link} (h : s.Counted)

include h

theorem Counted.keeps_drop (hother : s.list? other = some l') (hne : other ≠ name) :
    Keeps other l' s (s.drop name) := by
  have hkept : (s.drop name).list? other = some l' := by
    rw [list?_drop, if_neg hne, hother]
  have hcounted := h.drop name
  obtain ⟨haddr, hlist⟩ :=
    Store.Counted.toList_eq hcounted (s.within_drop name) l' (hcounted.pos hkept)
  exact ⟨hkept, haddr, hlist⟩

variable (hl : ∀ a, l = some a → 0 < s.store.holdersAt a)

include hl

theorem Counted.keeps_clone (hother : s.list? other = some l') (hne : other ≠ name) :
    Keeps other l' s (s.clone name l) := by
  have hkept : (s.clone name l).list? other = some l' := by
    rw [list?_clone, if_neg hne, hother]
  have hput := keeps_put (h.clone hl name) hkept
  obtain ⟨haddr, hlist⟩ := s.store.toList_retain l l'
  exact ⟨hkept, hput.addresses.trans haddr, hput.toList.trans hlist⟩

theorem Counted.keeps_push (x : α) (hother : s.list? other = some l') (hne : other ≠ name) :
    Keeps other l' s (s.push name l x) := by
  have hkept : (s.push name l x).list? other = some l' := by
    rw [list?_push, if_neg hne, hother]
  have hput := keeps_put (h.push hl name x) hkept
  obtain ⟨haddr, hlist⟩ := s.store.toList_push l x (reach_le_of_pos (h.pos hother))
  exact ⟨hkept, hput.addresses.trans haddr, hput.toList.trans hlist⟩

theorem Counted.keeps_clone_new (name : String) : Keeps name l s (s.clone name l) := by
  have hnew : (s.clone name l).list? name = some l := by
    rw [list?_clone, if_pos rfl]
  have hput := keeps_put (h.clone hl name) hnew
  obtain ⟨haddr, hlist⟩ := s.store.toList_retain l l
  exact ⟨hnew, hput.addresses.trans haddr, hput.toList.trans hlist⟩

theorem Counted.toList_push_new (name : String) (x : α) :
    (s.push name l x).list? name = some (some s.store.cells.size) ∧
      (s.push name l x).store.addresses (some s.store.cells.size) =
        s.store.cells.size :: s.store.addresses l ∧
      (s.push name l x).store.toList (some s.store.cells.size) = x :: s.store.toList l := by
  have hnew : (s.push name l x).list? name = some (some s.store.cells.size) := by
    rw [list?_push, if_pos rfl]
  have hput := keeps_put (h.push hl name x) hnew
  obtain ⟨haddr, hlist⟩ := s.store.toList_push_new l x (reach_le_of_pos hl)
  exact ⟨hnew, hput.addresses.trans haddr, hput.toList.trans hlist⟩

end

/-! ### Actions one after the other -/

section

variable {s s' : Shelf α} {g : String} {l : Link} {made? : Option String}

/-- The list under the name has the same cells on both shelves. -/
structure SameCells (g : String) (l : Link) (s s' : Shelf α) : Prop where
  list : s'.list? g = some l
  addresses : s'.store.addresses l = s.store.addresses l

/-- What an action may do.  One that makes or drops a list leaves those under other names as they
are, and every other one keeps the names and writes elements. -/
inductive Changes (s s' : Shelf α) : Option String → Prop
  | binds {g : String}
      (keeps : ∀ {g' l}, s.list? g' = some l → g' ≠ g → Keeps g' l s s') : Changes s s' (some g)
  | writes {as : List Nat} (lists_eq : s'.lists = s.lists) (frame : Frame as s.store s'.store) :
      Changes s s' none

theorem Changes.keeps (h : Changes s s' (some g)) {g' : String} (hg' : s.list? g' = some l)
    (hne : g' ≠ g) : Keeps g' l s s' := by
  cases h with
  | binds hkeeps => exact hkeeps hg' hne

/-- **An action that does not make or drop a list** leaves its cells as they are. -/
theorem Changes.sameCells (h : Changes s s' made?) (hg : s.list? g = some l)
    (hne : made? ≠ some g) : SameCells g l s s' := by
  cases h with
  | binds hkeeps =>
    have hkept := hkeeps hg fun heq => hne (congrArg some heq.symm)
    exact ⟨hkept.list, hkept.addresses⟩
  | writes hlists hframe => exact ⟨by rw [list?, hlists]; exact hg, hframe.addresses l⟩

variable {A : Type} {step : Shelf α → A → Shelf α} {binds? : A → Option String}
  {Inv : Shelf α → Prop} (hinv : ∀ {s} a, Inv s → Inv (step s a))
  (hstep : ∀ {s} a, Inv s → Changes s (step s a) (binds? a))

include hinv hstep

/-- **A list keeps its cells** as long as no action makes or drops it. -/
theorem sameCells_foldl (h : Inv s) (hg : s.list? g = some l) (actions : List A)
    (hactions : ∀ a ∈ actions, binds? a ≠ some g) : SameCells g l s (actions.foldl step s) := by
  induction actions generalizing s with
  | nil => exact ⟨hg, rfl⟩
  | cons a actions ih =>
    obtain ⟨ha, hactions⟩ := List.forall_mem_cons.mp hactions
    have hfirst := (hstep a h).sameCells hg ha
    have hrest := ih (hinv a h) hfirst.list hactions
    exact ⟨hrest.list, hrest.addresses.trans hfirst.addresses⟩

/-- **As long as only others are made and dropped,** a list keeps its elements too. -/
theorem keeps_foldl (h : Inv s) (hg : s.list? g = some l) (actions : List A)
    (hactions : ∀ a ∈ actions, ∃ other, binds? a = some other ∧ g ≠ other) :
    Keeps g l s (actions.foldl step s) := by
  induction actions generalizing s with
  | nil => exact ⟨hg, rfl, rfl⟩
  | cons a actions ih =>
    obtain ⟨⟨other, ha, hne⟩, hactions⟩ := List.forall_mem_cons.mp hactions
    have hfirst := (ha ▸ hstep a h).keeps hg hne
    have hrest := ih (hinv a h) hfirst.list hactions
    exact ⟨hrest.list, hrest.addresses.trans hfirst.addresses, hrest.toList.trans hfirst.toList⟩

end

end Shelf

end SharedList

end Lox
