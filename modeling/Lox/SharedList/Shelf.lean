import Lox.SharedList.Store
import Std.Data.TreeMap.Basic

/-!
# Named shared lists

A shelf holds shared lists under names, all of them in one store. A list that is put under a name
takes the place of the one that was there, which is then let go.
-/

namespace Lox

namespace SharedList

/-- Named lists and the store that they are in. -/
structure Shelf (α : Type) where
  store : Store α := {}
  lists : Std.TreeMap String Link := {}

namespace Shelf

variable {α β : Type}

/-- The list with a name. -/
def list? (s : Shelf α) (name : String) : Option Link := s.lists[name]?

/-- Puts a list, which already counts the shelf as a holder, under a name. -/
def put (s : Shelf α) (name : String) (l : Link) : Shelf α :=
  match s.lists[name]? with
  | some old => ⟨s.store.release old, s.lists.insert name l⟩
  | none => ⟨s.store, s.lists.insert name l⟩

/-- An empty list under a name. -/
def create (s : Shelf α) (name : String) : Shelf α := s.put name none

/-- The list `l` under one more name. -/
def clone (s : Shelf α) (name : String) (l : Link) : Shelf α :=
  put ⟨s.store.retain l, s.lists⟩ name l

/-- Under a name, a list with the element `x` before the elements of `l`. -/
def push (s : Shelf α) (name : String) (l : Link) (x : α) : Shelf α :=
  match s with
  | ⟨store, lists⟩ =>
    match store.push l x with
    | (new, store) => put ⟨store, lists⟩ name new

/-- Lets go of the list with a name. -/
def drop (s : Shelf α) (name : String) : Shelf α :=
  match s.lists[name]? with
  | some old => ⟨s.store.release old, s.lists.erase name⟩
  | none => s

/-- Puts an element in the place of the first one of a list. -/
def setFront (s : Shelf α) (l : Link) (x : α) : Shelf α := ⟨s.store.setFront l x, s.lists⟩

/-- Changes the elements of a list from front to back, until one of them answers. -/
def update (s : Shelf α) (f : α → α × Option β) (l : Link) : Option β × Shelf α :=
  match s with
  | ⟨store, lists⟩ =>
    match store.update f l with
    | (answer, store) => (answer, ⟨store, lists⟩)

end Shelf

end SharedList

end Lox
