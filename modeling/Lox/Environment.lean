import Lox.SharedList.Store
import Lox.Value
import Std.Data.TreeMap.Basic

/-!
# Environments

An environment is a shared list of scopes, the innermost one first. A child of an environment has
one more scope before the scopes of its parent, and shares those with it: what the child assigns to
a variable of an outer scope, the parent sees.
-/

namespace Lox

/-- A scope: values by name. -/
abbrev Scope := Std.TreeMap String Value

/-- The store of all scopes. -/
abbrev Scopes := SharedList.Store Scope

/-- An environment in a store of scopes. -/
abbrev Environment := SharedList.Link

namespace Scopes

/-- A new environment with one empty scope. -/
def create (s : Scopes) : Environment × Scopes := s.push none {}

/-- A new environment with an empty scope before those of its parent. -/
def child (s : Scopes) (parent : Environment) : Environment × Scopes := s.push parent {}

/-- The number of scopes of an environment. -/
def depth (s : Scopes) (env : Environment) : Nat := s.length env

/-- Gives a variable of the innermost scope a value, whether it was there or not. -/
def define (s : Scopes) (env : Environment) (name : String) (v : Value) : Scopes :=
  match env with
  | none => s
  | some a => s.modify a fun c => { c with elem := c.elem.insert name v }

/-- The value of a variable in the nearest scope that has it. -/
def lookup? (s : Scopes) (env : Environment) (name : String) : Option Value :=
  s.find? (fun scope => scope[name]?) env

/-- The scope with a new value for a variable, if it has that variable. -/
def rebind (name : String) (v : Value) (scope : Scope) : Scope × Option Unit :=
  if scope.contains name then (scope.insert name v, some ()) else (scope, none)

/-- Gives a variable a new value in the nearest scope that has it, and says whether there is one. -/
def assign (s : Scopes) (env : Environment) (name : String) (v : Value) : Bool × Scopes :=
  match s.update (rebind name v) env with
  | (answer, s) => (answer.isSome, s)

end Scopes

end Lox
