import Lox.Proofs.SharedList.Frame
import Lox.SharedList.Shelf

/-!
# Going through a list

A list is gone through from front to back until one of its elements answers.  What is asked of an
element may depend on the elements that were asked before it, so that `visit` tells apart in which
order and how often the elements are asked.  Looking for an element (`find?`) and changing elements
(`update`) are visits whose question is the same for all elements (`update_eq_visit`,
`find?_eq_visit`).

* `replies f before asked`: what the elements reply that are asked one after the other.
* `Visits f before asked rest ys answer`: the elements `asked` were asked in this order and each of
  them once, the last one gave the answer and none before it did; the elements `rest` after them
  were not asked and are the same as before.
* `visit_spec`: **this is what a visit does,** and it changes no other cell.
-/

namespace Lox

namespace SharedList

variable {α β : Type}

namespace Store

/-! ### Questions that depend on what was asked before -/

/-- Changes the elements at the given addresses in turn, until one of them answers.  What becomes of
an element may depend on the elements `before`, which were there before it. -/
def visitAt (f : List α → α → α × Option β) : List α → List Nat → Store α → Option β × Store α
  | _, [], s => (none, s)
  | before, a :: as, s =>
    match s.cell? a with
    | none => visitAt f before as s
    | some c =>
      match f before c.elem with
      | (x, answer) =>
        let s := s.modify a fun c => { c with elem := x }
        match answer with
        | some b => (some b, s)
        | none => visitAt f (before ++ [c.elem]) as s

/-- Changes the elements of a list from front to back, until one of them answers. -/
def visit (s : Store α) (f : List α → α → α × Option β) (l : Link) : Option β × Store α :=
  visitAt f [] (s.addresses l) s

theorem updateAt_eq_visitAt (f : α → α × Option β) (as : List Nat) :
    ∀ (before : List α) (s : Store α), updateAt f as s = visitAt (fun _ => f) before as s := by
  induction as with
  | nil => exact fun _ _ => rfl
  | cons a as ih =>
    intro before s
    rw [updateAt, visitAt]
    cases s.cell? a with
    | none => exact ih before s
    | some c =>
      dsimp only
      cases (f c.elem).2 with
      | some b => rfl
      | none => exact ih _ _

/-- **Updating is a visit** with the same question for all elements. -/
theorem update_eq_visit (s : Store α) (f : α → α × Option β) (l : Link) :
    s.update f l = s.visit (fun _ => f) l :=
  updateAt_eq_visitAt f _ [] s

theorem modify_same {s : Store α} {a : Nat} {c : Cell α} (hc : s.cell? a = some c) :
    (s.modify a fun c' => { c' with elem := c.elem }) = s := by
  have hcells : s.cells[a]? = some (some c) := Option.join_eq_some_iff.mp hc
  show (⟨s.cells.modify a (Option.map fun c' => { c' with elem := c.elem })⟩ : Store α) = s
  congr 1
  refine Array.ext_getElem? fun i => ?_
  rw [Array.getElem?_modify]
  by_cases hi : a = i
  · subst hi
    rw [if_pos rfl, hcells]
    rfl
  · rw [if_neg hi]

theorem visitAt_of_keeps {f : List α → α → α × Option β} (hf : ∀ before x, (f before x).1 = x)
    (as : List Nat) : ∀ (before : List α) (s : Store α), (visitAt f before as s).2 = s := by
  induction as with
  | nil => exact fun _ _ => rfl
  | cons a as ih =>
    intro before s
    rw [visitAt]
    cases hc : s.cell? a with
    | none => exact ih before s
    | some c =>
      dsimp only
      rw [hf, modify_same hc]
      cases (f before c.elem).2 with
      | some b => rfl
      | none => exact ih _ s

theorem findSome?_eq_visitAt (f : α → Option β) (as : List Nat) :
    ∀ (before : List α) (s : Store α),
      (s.elems as).findSome? f = (visitAt (fun _ x => (x, f x)) before as s).1 := by
  induction as with
  | nil => exact fun _ _ => rfl
  | cons a as ih =>
    intro before s
    rw [visitAt]
    cases hc : s.cell? a with
    | none =>
      rw [elems_cons_none hc]
      exact ih before s
    | some c =>
      dsimp only
      rw [elems_cons hc, List.findSome?_cons, modify_same hc]
      cases f c.elem with
      | some b => rfl
      | none => exact ih _ s

/-- **Looking for an element is a visit** that leaves all elements as they are. -/
theorem find?_eq_visit (s : Store α) (f : α → Option β) (l : Link) :
    (s.find? f l, s) = s.visit (fun _ x => (x, f x)) l :=
  Prod.ext (findSome?_eq_visitAt f _ [] s) (visitAt_of_keeps (fun _ _ => rfl) _ [] s).symm

/-! ### What a visit does -/

/-- What elements reply that are asked one after the other, the first one after those in `before`.
-/
def replies (f : List α → α → α × Option β) : List α → List α → List (α × Option β)
  | _, [] => []
  | before, x :: xs => f before x :: replies f (before ++ [x]) xs

/-- The elements `asked` were asked in this order, and `rest` was not.  The list has become `ys`:
what each element that was asked replied is in its place, and the others are in theirs.  The last
one that was asked gave the answer and none before it did; without an answer, all were asked. -/
structure Visits (f : List α → α → α × Option β) (before asked rest ys : List α)
    (answer : Option β) : Prop where
  elems : ys = (replies f before asked).map Prod.fst ++ rest
  last : answer = (replies f before asked).getLast?.bind Prod.snd
  silent : ∀ r ∈ (replies f before asked).dropLast, r.2 = none
  complete : answer = none → rest = []

namespace Visits

variable {f : List α → α → α × Option β} {before : List α}

theorem nil : Visits f before [] [] [] none := ⟨rfl, rfl, nofun, fun _ => rfl⟩

theorem answers {x y : α} {b : β} (h : f before x = (y, some b)) (rest : List α) :
    Visits f before [x] rest (y :: rest) (some b) := by
  have hreplies : replies f before [x] = [(y, some b)] := by
    rw [replies, h, replies]
  exact ⟨by rw [hreplies]; rfl, by rw [hreplies]; rfl, by rw [hreplies]; exact nofun, nofun⟩

theorem passes {x y : α} {asked rest ys : List α} {answer : Option β} (h : f before x = (y, none))
    (hv : Visits f (before ++ [x]) asked rest ys answer) :
    Visits f before (x :: asked) rest (y :: ys) answer := by
  have hreplies : replies f before (x :: asked) = (y, none) :: replies f (before ++ [x]) asked := by
    rw [replies, h]
  have hlast := hv.last
  have hsilent := hv.silent
  refine ⟨by rw [hreplies, hv.elems]; rfl, ?_, ?_, hv.complete⟩
  · rw [hreplies]
    cases hr : replies f (before ++ [x]) asked with
    | nil =>
      rw [hr] at hlast
      exact hlast
    | cons r rs =>
      rw [hr] at hlast
      rw [List.getLast?_cons_cons]
      exact hlast
  · rw [hreplies]
    cases hr : replies f (before ++ [x]) asked with
    | nil => exact nofun
    | cons r rs =>
      rw [hr] at hsilent
      rw [List.dropLast_cons_cons, List.forall_mem_cons]
      exact ⟨rfl, hsilent⟩

end Visits

/-- **What a visit does along addresses.**  Where it does not ask it does not change anything. -/
theorem visitAt_spec (f : List α → α → α × Option β) (as : List Nat) :
    ∀ (before : List α) (s : Store α), as.Nodup → (∀ a ∈ as, ∃ c, s.cell? a = some c) →
      ∃ asked rest, s.elems as = asked ++ rest ∧
        Visits f before asked rest ((visitAt f before as s).2.elems as) (visitAt f before as s).1 ∧
        Frame as s (visitAt f before as s).2 ∧
        (visitAt f before as s).2.cells.size = s.cells.size := by
  induction as with
  | nil => exact fun before s _ _ => ⟨[], [], rfl, .nil, .refl _ s, rfl⟩
  | cons a as ih =>
    intro before s hnodup hcells
    obtain ⟨ha, hnodup⟩ := List.nodup_cons.mp hnodup
    obtain ⟨⟨c, hc⟩, hcells⟩ := List.forall_mem_cons.mp hcells
    obtain ⟨y, answer, hf⟩ : ∃ y answer, f before c.elem = (y, answer) := ⟨_, _, rfl⟩
    let s₁ : Store α := s.modify a fun c => { c with elem := y }
    have hframe : Frame (a :: as) s s₁ := frame_modify s (List.mem_cons_self ..) fun _ => y
    have hc₁ : s₁.cell? a = some { c with elem := y } := by
      rw [cell?_modify, if_pos rfl, hc]
      rfl
    have hrest : s₁.elems as = s.elems as := s.elems_modify_of_not_mem ha _
    have hsize : s₁.cells.size = s.cells.size := Array.size_modify
    rw [elems_cons hc]
    cases answer with
    | some b =>
      have hvisit : visitAt f before (a :: as) s = (some b, s₁) := by
        simp only [visitAt, hc, hf, s₁]
      rw [hvisit]
      refine ⟨[c.elem], s.elems as, rfl, ?_, hframe, hsize⟩
      rw [elems_cons hc₁, hrest]
      exact .answers hf _
    | none =>
      have hvisit : visitAt f before (a :: as) s = visitAt f (before ++ [c.elem]) as s₁ := by
        simp only [visitAt, hc, hf, s₁]
      have hcells₁ : ∀ b ∈ as, ∃ d, s₁.cell? b = some d := by
        intro b hb
        obtain ⟨d, hd⟩ := hcells b hb
        obtain ⟨x, hx⟩ := hframe.exists_cell hd
        exact ⟨_, hx⟩
      obtain ⟨asked, rest, hsplit, hvisits, hframe₁, hsize₁⟩ :=
        ih (before ++ [c.elem]) s₁ hnodup hcells₁
      rw [hvisit]
      refine ⟨c.elem :: asked, rest, ?_, ?_, ?_, hsize₁.trans hsize⟩
      · rw [← hrest, hsplit]
        rfl
      · rw [elems_cons ((hframe₁.cell a ha).trans hc₁)]
        exact .passes hf hvisits
      · exact hframe.trans (hframe₁.weaken fun b hb => List.mem_cons_of_mem _ hb)

theorem visit_spec (s : Store α) (f : List α → α → α × Option β) (l : Link) :
    ∃ asked rest, s.toList l = asked ++ rest ∧
      Visits f [] asked rest ((s.visit f l).2.toList l) (s.visit f l).1 ∧
      Frame (s.addresses l) s (s.visit f l).2 ∧ (s.visit f l).2.cells.size = s.cells.size := by
  obtain ⟨asked, rest, hsplit, hvisits, hframe, hsize⟩ := visitAt_spec f (s.addresses l) [] s
    (s.nodup_addresses l) (s.exists_cell_of_mem_addresses l)
  have haddresses : (s.visit f l).2.addresses l = s.addresses l := hframe.addresses l
  refine ⟨asked, rest, hsplit, ?_, hframe, hsize⟩
  rwa [toList_eq_elems, haddresses]

/-! ### How many elements are asked -/

theorem replies_of_same (g : α → α × Option β) (xs : List α) :
    ∀ before, replies (fun _ => g) before xs = xs.map g := by
  induction xs with
  | nil => exact fun _ => rfl
  | cons x xs ih =>
    intro before
    rw [replies, ih, List.map_cons]

theorem asked_append {f : α → Option β} {xs rest : List α} (hsilent : ∀ x ∈ xs.dropLast, f x = none)
    (hcomplete : xs.getLast?.bind f = none → rest = []) : asked f (xs ++ rest) = xs.length := by
  induction xs with
  | nil =>
    rw [hcomplete rfl]
    rfl
  | cons x xs ih =>
    rw [List.cons_append, asked, List.length_cons]
    cases xs with
    | nil =>
      cases hx : f x with
      | some b => rfl
      | none => rw [hcomplete hx]; rfl
    | cons y ys =>
      rw [List.dropLast_cons_cons, List.forall_mem_cons] at hsilent
      rw [List.getLast?_cons_cons] at hcomplete
      rw [hsilent.1, ih hsilent.2 hcomplete]
      rfl

/-- **The number of visited elements is the number of those asked.** -/
theorem Visits.length_asked {g : α → α × Option β} {before asked rest ys : List α}
    {answer : Option β} (h : Visits (fun _ => g) before asked rest ys answer) :
    Store.asked (fun x => (g x).2) (asked ++ rest) = asked.length := by
  have hsilent := h.silent
  have hcomplete := h.complete
  rw [h.last, replies_of_same, List.getLast?_map, Option.bind_map] at hcomplete
  rw [replies_of_same, ← List.map_dropLast, List.forall_mem_map] at hsilent
  exact asked_append hsilent hcomplete

end Store

/-- Changes the elements of a list on a shelf from front to back, until one of them answers. -/
def Shelf.visit (s : Shelf α) (f : List α → α → α × Option β) (l : Link) : Option β × Shelf α :=
  match s with
  | ⟨store, lists⟩ =>
    match store.visit f l with
    | (answer, store) => (answer, ⟨store, lists⟩)

theorem Shelf.update_eq_visit (s : Shelf α) (f : α → α × Option β) (l : Link) :
    s.update f l = s.visit (fun _ => f) l := by
  obtain ⟨store, lists⟩ := s
  rw [Shelf.update, Shelf.visit, Store.update_eq_visit]

end SharedList

end Lox
