import Lox.Proofs.SharedList.Histories

/-!
# Letting go frees what nobody can reach

A list is let go cell by cell: as long as the first cell has no other holder it is cleared away and
the list after it is let go in turn, and the first cell that is held elsewhere loses one holder and
ends it (`Unlinks`).  Nothing in these rules bounds the number of steps, and nothing in them looks
at more than one cell.  On a counted store they come to an end, in the store that `release` gives
(`Counted.exists_unlinks`).

That just the right cells are cleared away is a matter of the counts alone.  A cell of a counted
store has a holder, which is a handle or a newer cell; going on to newer cells, which are finitely
many, one comes to a handle (`Counted.exists_reaches`).  So the cells that are there are the cells
that can be reached, before a list is let go and after it, and in between go those that only this
list reached.
-/

namespace Lox

namespace SharedList

variable {α β : Type}

namespace Store

variable {s s' : Store α} {l : Link} {handles : Nat → Nat}

/-! ### Cells that can be reached -/

/-- The cell at an address is there, and links lead to it from the list. -/
inductive Reaches (s : Store α) : Link → Nat → Prop
  | here {a : Nat} {c : Cell α} (hc : s.cell? a = some c) : Reaches s (some a) a
  | next {a b : Nat} {c : Cell α} (hc : s.cell? a = some c) (h : Reaches s c.next b) :
      Reaches s (some a) b

theorem Reaches.exists_cell {a : Nat} (h : s.Reaches l a) : ∃ c, s.cell? a = some c := by
  induction h with
  | here hc => exact ⟨_, hc⟩
  | next hc h ih => exact ih

theorem Reaches.snoc {a b : Nat} {c d : Cell α} (h : s.Reaches l a) (hc : s.cell? a = some c)
    (hb : c.next = some b) (hd : s.cell? b = some d) : s.Reaches l b := by
  induction h with
  | here hc' =>
    cases hc'.symm.trans hc
    exact .next hc (hb ▸ .here hd)
  | next hc' h ih => exact .next hc' (ih hc)

theorem Counted.reaches_iff_mem (h : Counted s handles) (l : Link) {a : Nat} :
    s.Reaches l a ↔ a ∈ s.addresses l := by
  induction l using s.chain_induction with
  | nil =>
    rw [addresses_none]
    exact ⟨nofun, nofun⟩
  | gone b hb =>
    rw [addresses_of_cell?_none hb]
    refine ⟨fun hreach => ?_, nofun⟩
    cases hreach with
    | here hc => cases hb.symm.trans hc
    | next hc _ => cases hb.symm.trans hc
  | cons b c hc ih =>
    rw [addresses_some s hc, List.mem_cons, ← ih, h.older hc]
    constructor
    · rintro (_ | ⟨hc', hreach⟩)
      · exact .inl rfl
      · cases hc'.symm.trans hc
        exact .inr hreach
    · rintro (rfl | hreach)
      · exact .here hc
      · exact .next hc hreach

/-- **What is there can be reached:** a cell is reached from some handle. -/
theorem Counted.exists_reaches (h : Counted s handles) {a : Nat} {c : Cell α}
    (hc : s.cell? a = some c) : ∃ b, 0 < handles b ∧ s.Reaches (some b) a := by
  -- The holder of a cell is newer, and no cell is newer than the last one of the store.
  induction hn : s.cells.size - a using Nat.strongRecOn generalizing a c with
  | ind n ih =>
    have hcount := h.count a
    have hpos := h.pos hc
    rw [holdersAt_of_cell? hc] at hcount
    by_cases hhandle : 0 < handles a
    · exact ⟨a, hhandle, .here hc⟩
    · obtain ⟨b, hb⟩ := Finset.card_pos.mp (show 0 < (s.linking a).card by omega)
      obtain ⟨d, hd, hnext⟩ := Option.bind_eq_some_iff.mp (mem_linking.mp hb)
      have hnewer := (h.link_older hd hnext).1
      have hsize := lt_size_of_cell? hd
      obtain ⟨e, he, hreach⟩ := ih (s.cells.size - b) (by omega) hd rfl
      exact ⟨e, he, hreach.snoc hd hnext hc⟩

/-! ### Letting go, one cell at a time -/

/-- Letting go of a list clears the cells at these addresses away, one after the other, and leaves
the second store. -/
inductive Unlinks : Store α → Link → List Nat → Store α → Prop
  /-- Nothing is left to let go of. -/
  | done (s : Store α) : Unlinks s none [] s
  /-- Nobody else holds the first cell: its link is let go of in its place. -/
  | free {s s' : Store α} {a : Nat} {c : Cell α} {freed : List Nat} (hc : s.cell? a = some c)
      (hone : c.holders = 1) (h : Unlinks (s.erase a) c.next freed s') :
      Unlinks s (some a) (a :: freed) s'
  /-- The first cell is held elsewhere: it loses one holder and stays. -/
  | stop {s : Store α} {a : Nat} {c : Cell α} (hc : s.cell? a = some c) (hmore : 1 < c.holders) :
      Unlinks s (some a) [] (s.modify a fun c => { c with holders := c.holders - 1 })

/-- **There is only one way to let go of a list.** -/
theorem Unlinks.unique {s' s'' : Store α} {freed freed' : List Nat} (h : Unlinks s l freed s')
    (h' : Unlinks s l freed' s'') : freed' = freed ∧ s'' = s' := by
  induction h generalizing freed' s'' with
  | done s =>
    cases h'
    exact ⟨rfl, rfl⟩
  | free hc hone h ih =>
    cases h' with
    | free hc' hone' h' =>
      cases hc.symm.trans hc'
      obtain ⟨rfl, rfl⟩ := ih h'
      exact ⟨rfl, rfl⟩
    | stop hc' hmore' =>
      cases hc.symm.trans hc'
      omega
  | stop hc hmore =>
    cases h' with
    | free hc' hone' h' =>
      cases hc.symm.trans hc'
      omega
    | stop hc' hmore' => exact ⟨rfl, rfl⟩

theorem Unlinks.cell?_eq_none_iff {freed : List Nat} (h : Unlinks s l freed s') (a : Nat) :
    s'.cell? a = none ↔ s.cell? a = none ∨ a ∈ freed := by
  induction h with
  | done s => simp
  | @free s s' b c freed hc hone h ih =>
    rw [ih, cell?_erase, List.mem_cons]
    by_cases hab : a = b <;> simp [hab]
  | @stop s b c hc hmore =>
    rw [cell?_modify]
    by_cases hab : a = b <;> simp [hab]

theorem Unlinks.exists_cell {freed : List Nat} (h : Unlinks s l freed s') {a : Nat}
    (ha : a ∈ freed) : ∃ c, s.cell? a = some c := by
  induction h with
  | done s => cases ha
  | @free s s' b c freed hc hone h ih =>
    obtain rfl | ha := List.mem_cons.mp ha
    · exact ⟨c, hc⟩
    · obtain ⟨d, hd⟩ := ih ha
      rw [cell?_erase] at hd
      split at hd
      · cases hd
      · exact ⟨d, hd⟩
  | stop hc hmore => cases ha

theorem Counted.exists_unlinks (h : Counted s fun a => handles a + one l a) :
    ∃ freed, Unlinks s l freed (s.release l) := by
  fun_induction Store.release s l with
  | case1 s => exact ⟨[], .done s⟩
  | case2 s a hc =>
    have hcount := h.count a
    rw [holdersAt_of_cell?_none hc, one_self] at hcount
    omega
  | case3 s a c hc hlast ih =>
    have hold := h.older hc
    have hpos := h.pos hc
    rw [hold] at ih ⊢
    obtain ⟨freed, hfreed⟩ := ih (h.erase hc hlast)
    exact ⟨a :: freed, .free hc (by omega) hfreed⟩
  | case4 s a c hc hmore => exact ⟨[], .stop hc (by omega)⟩

end Store

namespace Shelf

open Store

variable {s : Shelf α} {g : String} {l : Link}

/-! ### Shelves -/

theorem Counted.exists_cell_iff (h : s.Counted) (a : Nat) :
    (∃ c, s.store.cell? a = some c) ↔ ∃ g l, s.list? g = some l ∧ s.store.Reaches l a := by
  constructor
  · rintro ⟨c, hc⟩
    obtain ⟨b, hb, hreach⟩ := Store.Counted.exists_reaches h hc
    obtain ⟨g, hg⟩ := Finset.card_pos.mp hb
    exact ⟨g, some b, mem_namesOf.mp hg, hreach⟩
  · rintro ⟨g, l, -, hreach⟩
    exact hreach.exists_cell

/-! ### Dropping names, in any order -/

/-- Drops names one after the other. -/
def dropAll (s : Shelf α) (gs : List String) : Shelf α := gs.foldl drop s

theorem Counted.dropAll (h : s.Counted) (gs : List String) : (s.dropAll gs).Counted := by
  induction gs generalizing s with
  | nil => exact h
  | cons g gs ih => exact ih (h.drop g)

@[simp]
theorem list?_dropAll (s : Shelf α) (gs : List String) (g : String) :
    (s.dropAll gs).list? g = if g ∈ gs then none else s.list? g := by
  induction gs generalizing s with
  | nil => rfl
  | cons g' gs ih =>
    rw [show s.dropAll (g' :: gs) = (s.drop g').dropAll gs from rfl, ih, list?_drop]
    by_cases hgs : g ∈ gs <;> by_cases hg' : g = g' <;> simp [hgs, hg']

/-- **Whatever is dropped, and in whatever order,** a list that is not dropped stays as it is. -/
theorem Counted.keeps_dropAll (h : s.Counted) (hg : s.list? g = some l) {gs : List String}
    (hgs : g ∉ gs) : Keeps g l s (s.dropAll gs) := by
  induction gs generalizing s with
  | nil => exact ⟨hg, rfl, rfl⟩
  | cons g' gs ih =>
    obtain ⟨hne, hgs⟩ := not_or.mp (List.mem_cons.not.mp hgs)
    have hfirst := h.keeps_drop hg hne
    have hrest := ih (h.drop g') hfirst.list hgs
    exact ⟨hrest.list, hrest.addresses.trans hfirst.addresses, hrest.toList.trans hfirst.toList⟩

theorem Counted.exists_cell_dropAll_iff (h : s.Counted) (gs : List String) (a : Nat) :
    (∃ c, (s.dropAll gs).store.cell? a = some c) ↔
      ∃ g l, g ∉ gs ∧ s.list? g = some l ∧ s.store.Reaches l a := by
  have hreaches : ∀ g l, g ∉ gs → s.list? g = some l →
      ((s.dropAll gs).store.Reaches l a ↔ s.store.Reaches l a) := by
    intro g l hgs hg
    rw [Store.Counted.reaches_iff_mem h, Store.Counted.reaches_iff_mem (h.dropAll gs),
      (h.keeps_dropAll hg hgs).addresses]
  rw [(h.dropAll gs).exists_cell_iff]
  constructor
  · rintro ⟨g, l, hg, hreach⟩
    rw [list?_dropAll] at hg
    split at hg
    · cases hg
    · next hgs => exact ⟨g, l, hgs, hg, (hreaches g l hgs hg).mp hreach⟩
  · rintro ⟨g, l, hgs, hg, hreach⟩
    exact ⟨g, l, by rw [list?_dropAll, if_neg hgs, hg], (hreaches g l hgs hg).mpr hreach⟩

/-! ### What goes -/

theorem Counted.exists_unlinks_drop (h : s.Counted) (hg : s.list? g = some l) :
    ∃ freed, Unlinks s.store l freed (s.drop g).store := by
  have hdrop : (s.drop g).store = s.store.release l := by
    unfold Shelf.drop
    rw [show s.lists[g]? = some l from hg]
  have hothers : s.store.Counted fun a => handles (s.lists.erase g) a + one l a := by
    refine Store.Counted.congr h fun a => ?_
    rw [handles_erase s.lists g, show s.lists[g]? = some l from hg, Option.join_some]
  rw [hdrop]
  exact Store.Counted.exists_unlinks hothers

theorem Counted.mem_freed_iff (h : s.Counted) {freed : List Nat}
    (hfreed : Unlinks s.store l freed (s.drop g).store) (a : Nat) :
    a ∈ freed ↔ (∃ c, s.store.cell? a = some c) ∧
      ∀ g' l', g' ≠ g → s.list? g' = some l' → ¬ s.store.Reaches l' a := by
  have hgone := hfreed.cell?_eq_none_iff a
  have hthere : (∃ c, (s.drop g).store.cell? a = some c) ↔
      ∃ g' l', g' ∉ [g] ∧ s.list? g' = some l' ∧ s.store.Reaches l' a :=
    h.exists_cell_dropAll_iff [g] a
  simp only [List.mem_singleton] at hthere
  constructor
  · intro ha
    refine ⟨hfreed.exists_cell ha, fun g' l' hne hg' hreach => ?_⟩
    obtain ⟨c, hc⟩ := hthere.mpr ⟨g', l', hne, hg', hreach⟩
    cases (hgone.mpr (.inr ha)).symm.trans hc
  · rintro ⟨⟨c, hc⟩, hunreached⟩
    have hnone : (s.drop g).store.cell? a = none := by
      refine Option.eq_none_iff_forall_ne_some.mpr fun d hd => ?_
      obtain ⟨g', l', hne, hg', hreach⟩ := hthere.mp ⟨d, hd⟩
      exact hunreached g' l' hne hg' hreach
    obtain hnone' | ha := hgone.mp hnone
    · cases hnone'.symm.trans hc
    · exact ha

/-- **Letting go of a list frees exactly what nobody else can reach.**  After every history:

* the count of a cell is the number of lists that start there and of cells that link to it;
* a cell is there exactly if it can be reached from a list;
* when a list is dropped, letting go of it cell by cell comes to an end in one way only, and the
  cells that are cleared away on it are exactly those that no other list reaches; the other lists
  stay, with the same length and the same elements;
* so it is for any number of lists that are dropped one after the other, in whatever order. -/
theorem drop_frees_unreachable (history : List (Action α β)) :
    let s := run ({} : Shelf α) history
    (∀ a c, s.store.cell? a = some c →
      c.holders = (namesOf s.lists a).card + (s.store.linking a).card) ∧
    (∀ a, (∃ c, s.store.cell? a = some c) ↔ ∃ g l, s.list? g = some l ∧ s.store.Reaches l a) ∧
    (∀ g l, s.list? g = some l → ∃ freed,
      Unlinks s.store l freed (s.drop g).store ∧
      (∀ freed' store', Unlinks s.store l freed' store' →
        freed' = freed ∧ store' = (s.drop g).store) ∧
      (∀ a, a ∈ freed ↔ (∃ c, s.store.cell? a = some c) ∧
        ∀ g' l', g' ≠ g → s.list? g' = some l' → ¬ s.store.Reaches l' a) ∧
      (∀ a, (s.drop g).store.cell? a = none ↔ s.store.cell? a = none ∨ a ∈ freed) ∧
      (s.drop g).list? g = none ∧
      ∀ g' l', g' ≠ g → s.list? g' = some l' → (s.drop g).list? g' = some l' ∧
        (s.drop g).store.length l' = s.store.length l' ∧
        (s.drop g).store.toList l' = s.store.toList l') ∧
    ∀ gs : List String,
      (∀ a, (∃ c, (s.dropAll gs).store.cell? a = some c) ↔
        ∃ g l, g ∉ gs ∧ s.list? g = some l ∧ s.store.Reaches l a) ∧
      ∀ g l, g ∉ gs → s.list? g = some l → (s.dropAll gs).list? g = some l ∧
        (s.dropAll gs).store.length l = s.store.length l ∧
        (s.dropAll gs).store.toList l = s.store.toList l := by
  intro s
  have h : s.Counted := counted_empty.run history
  have hkeeps : ∀ gs g l, g ∉ gs → s.list? g = some l → (s.dropAll gs).list? g = some l ∧
      (s.dropAll gs).store.length l = s.store.length l ∧
      (s.dropAll gs).store.toList l = s.store.toList l := by
    intro gs g l hgs hg
    have hkept := h.keeps_dropAll hg hgs
    exact ⟨hkept.list, congrArg List.length hkept.addresses, hkept.toList⟩
  refine ⟨fun a c hc => ?_, h.exists_cell_iff, fun g l hg => ?_,
    fun gs => ⟨h.exists_cell_dropAll_iff gs, hkeeps gs⟩⟩
  · have hcount := Store.Counted.count h a
    rwa [holdersAt_of_cell? hc] at hcount
  · obtain ⟨freed, hfreed⟩ := h.exists_unlinks_drop hg
    refine ⟨freed, hfreed, fun freed' store' h' => hfreed.unique h', h.mem_freed_iff hfreed,
      hfreed.cell?_eq_none_iff, ?_, fun g' l' hne hg' => ?_⟩
    · rw [list?_drop, if_pos rfl]
    · exact hkeeps [g] g' l' (List.mem_singleton.not.mpr hne) hg'

/-- A list of two elements, two lists with one more element before it, and a clone of one of them;
the first list is dropped while the others still reach its cells. -/
def family : List (Action Nat Unit) :=
  [.create "a", .push "a" "a" 1, .push "a" "a" 2, .push "b" "a" 3, .push "c" "a" 4, .clone "d" "c",
   .drop "a"]

/-- Dropping the second list clears its own cell away and stops at the one after it, which the third
list still reaches.  With the clone dropped the third list still has its elements, and when all
lists are dropped no cell is left. -/
theorem drop_frees_unreachable_family :
    let s := run {} family
    s.list? "b" = some (some 2) ∧ s.list? "c" = some (some 3) ∧
      Unlinks s.store (some 2) [2] (s.drop "b").store ∧
      (s.dropAll ["d", "b"]).store.toList (some 3) = s.store.toList (some 3) ∧
      ∀ a, (s.dropAll ["d", "b", "c"]).store.cell? a = none := by
  intro s
  obtain ⟨hb, hc, hnames, hcell, hcell'⟩ : s.list? "b" = some (some 2) ∧
      s.list? "c" = some (some 3) ∧ s.lists.keys = ["b", "c", "d"] ∧
      (s.store.cell? 2).map (fun c => (c.next, c.holders)) = some (some 1, 1) ∧
      ((s.store.erase 2).cell? 1).map Cell.holders = some 2 :=
    show (run {} family).list? "b" = _ ∧ _ by decide +kernel
  obtain ⟨c, hc₂, hshape⟩ := Option.map_eq_some_iff.mp hcell
  obtain ⟨d, hd₁, hholders⟩ := Option.map_eq_some_iff.mp hcell'
  obtain ⟨hnext, hone⟩ := Prod.mk.inj hshape
  obtain ⟨-, -, hdrop, hdropAll⟩ := drop_frees_unreachable family
  obtain ⟨freed, hfreed, hunique, -⟩ := hdrop "b" (some 2) hb
  have hrest : ∃ store', Unlinks (s.store.erase 2) c.next [] store' := by
    rw [hnext]
    exact ⟨_, .stop hd₁ (by omega)⟩
  obtain ⟨store', hrest⟩ := hrest
  obtain ⟨rfl, -⟩ := hunique _ _ (.free hc₂ hone hrest)
  refine ⟨hb, hc, hfreed, ((hdropAll ["d", "b"]).2 "c" (some 3) (by decide) hc).2.2, fun a => ?_⟩
  -- Every name on the shelf is among those that are dropped.
  refine Option.eq_none_iff_forall_ne_some.mpr fun e he => ?_
  obtain ⟨g, l, hg, hl, -⟩ := ((hdropAll ["d", "b", "c"]).1 a).mp ⟨e, he⟩
  have hmem : g ∈ s.lists.keys :=
    Std.TreeMap.mem_keys.mpr (Std.TreeMap.mem_iff_isSome_getElem?.mpr (by
      rw [show s.lists[g]? = some l from hl]
      rfl))
  rw [hnames] at hmem
  simp only [List.mem_cons, List.not_mem_nil, or_false] at hg hmem
  tauto

end Shelf

end SharedList

end Lox
