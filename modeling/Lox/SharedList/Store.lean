/-!
# Shared lists

A shared list is a chain of cells in a store. A list is a link to its first cell, a cell links to
the cell after it, and several lists and cells may link to the same cell: two lists then have their
last elements in common, and writing such an element through one list shows in the other.

A new cell is put at the end of the store, so links lead to older cells and every chain ends. A cell
counts its holders, the lists and cells that link to it. When the last holder lets go the cell is
cleared away, and it lets go of the cell after it in turn.
-/

namespace Lox

namespace SharedList

/-- A list: the address of its first cell, or nothing when it is empty. -/
abbrev Link := Option Nat

/-- A cell: an element, the list after it, and the number of lists and cells that link to it. -/
structure Cell (α : Type) where
  elem : α
  next : Link
  holders : Nat

/-- The cells that were ever made, oldest first; those that were cleared away leave a gap. -/
structure Store (α : Type) where
  cells : Array (Option (Cell α)) := #[]

namespace Store

variable {α β : Type}

/-- The cell at an address. -/
def cell? (s : Store α) (a : Nat) : Option (Cell α) := s.cells[a]?.join

/-- Changes the cell at an address, if there is one. -/
def modify (s : Store α) (a : Nat) (f : Cell α → Cell α) : Store α :=
  ⟨s.cells.modify a (Option.map f)⟩

/-- Clears the cell at an address away. -/
def erase (s : Store α) (a : Nat) : Store α := ⟨s.cells.modify a fun _ => none⟩

/-- The list after the cell at the address `a`. A link that does not lead to an older cell is not
followed. -/
def older (a : Nat) (c : Cell α) : Link := c.next.filter (· < a)

/-- How far a chain can reach from a link. -/
def reach : Link → Nat
  | none => 0
  | some a => a + 1

theorem reach_older_lt (a : Nat) (c : Cell α) : reach (older a c) < a + 1 := by
  unfold older
  cases c.next with
  | none => simp [reach]
  | some b =>
    by_cases h : b < a <;> simp [Option.filter, h, reach]

/-! ### Reading -/

/-- The addresses of a list's cells from front to back, after those in `before`, last one first. -/
def addressesAfter (s : Store α) (before : List Nat) (l : Link) : List Nat :=
  match l with
  | none => before.reverse
  | some a =>
    match s.cell? a with
    | none => before.reverse
    | some c => addressesAfter s (a :: before) (older a c)
termination_by reach l
decreasing_by exact reach_older_lt a c

/-- The addresses of a list's cells, front to back. -/
def addresses (s : Store α) (l : Link) : List Nat := s.addressesAfter [] l

theorem addressesAfter_append (s : Store α) (front before : List Nat) (l : Link) :
    s.addressesAfter (front ++ before) l = before.reverse ++ s.addressesAfter front l := by
  fun_induction addressesAfter s front l with
  | case1 front => simp [addressesAfter]
  | case2 front a h => simp [addressesAfter, h]
  | case3 front a c h ih =>
    rw [addressesAfter, h]
    exact ih

/-- **An empty list has no cells.** -/
@[simp]
theorem addresses_none (s : Store α) : s.addresses none = [] := by
  rw [addresses, addressesAfter]
  rfl

/-- **The cells of a list are its first one and those of the list after it.** -/
theorem addresses_some (s : Store α) {a : Nat} {c : Cell α} (h : s.cell? a = some c) :
    s.addresses (some a) = a :: s.addresses (older a c) := by
  rw [addresses, addressesAfter]
  simp only [h]
  exact addressesAfter_append s [] [a] (older a c)

/-- The elements of a list, front to back. -/
def toList (s : Store α) (l : Link) : List α :=
  (s.addresses l).filterMap fun a => (s.cell? a).map Cell.elem

/-- The number of elements of a list. -/
def length (s : Store α) (l : Link) : Nat := (s.addresses l).length

/-- The first element of a list. -/
def front? (s : Store α) (l : Link) : Option α := l.bind fun a => (s.cell? a).map Cell.elem

/-- Asks the elements of a list from front to back until one answers. -/
def find? (s : Store α) (f : α → Option β) (l : Link) : Option β := (s.toList l).findSome? f

/-- The number of elements of a list that are asked until one answers. -/
def asked (f : α → Option β) : List α → Nat
  | [] => 0
  | x :: xs => if (f x).isSome then 1 else asked f xs + 1

/-- The number of elements of a list that `find?` and `update` look at. -/
def visited (s : Store α) (f : α → Option β) (l : Link) : Nat := asked f (s.toList l)

/-! ### Making lists and letting go of them -/

/-- One more holder for a list. -/
def retain (s : Store α) (l : Link) : Store α :=
  match l with
  | none => s
  | some a => s.modify a fun c => { c with holders := c.holders + 1 }

/-- A new list with the element `x` before the elements of `l`. -/
def push (s : Store α) (l : Link) (x : α) : Link × Store α :=
  (some s.cells.size, ⟨(s.retain l).cells.push (some ⟨x, l, 1⟩)⟩)

/-- One holder less for a list. Cells without holders are cleared away, up to the first one that is
held elsewhere. -/
def release (s : Store α) (l : Link) : Store α :=
  match l with
  | none => s
  | some a =>
    match s.cell? a with
    | none => s
    | some c =>
      if c.holders ≤ 1 then release (s.erase a) (older a c)
      else s.modify a fun c => { c with holders := c.holders - 1 }
termination_by reach l
decreasing_by exact reach_older_lt a c

/-! ### Writing -/

/-- Puts an element in the place of the first one of a list, if there is one. -/
def setFront (s : Store α) (l : Link) (x : α) : Store α :=
  match l with
  | none => s
  | some a => s.modify a fun c => { c with elem := x }

/-- Changes the elements at the given addresses in turn, until one of them answers. -/
def updateAt (f : α → α × Option β) : List Nat → Store α → Option β × Store α
  | [], s => (none, s)
  | a :: as, s =>
    match s.cell? a with
    | none => updateAt f as s
    | some c =>
      match f c.elem with
      | (x, answer) =>
        let s := s.modify a fun c => { c with elem := x }
        match answer with
        | some b => (some b, s)
        | none => updateAt f as s

/-- Changes the elements of a list from front to back, until one of them answers. -/
def update (s : Store α) (f : α → α × Option β) (l : Link) : Option β × Store α :=
  updateAt f (s.addresses l) s

end Store

end SharedList

end Lox
