import Lox.Number

/-!
# Values

The values of the language are nil, the two booleans, the doubles and texts. No operation turns a
value of one sort into one of another: values of different sorts are never equal, and every value
but nil and false counts as true.
-/

namespace Lox

/-- A value of the language. -/
inductive Value where
  | nil
  | bool (b : Bool)
  | number (x : Float)
  | string (s : String)
deriving DecidableEq

namespace Value

/-- The text a value is printed as. -/
def text : Value → String
  | nil => "nil"
  | bool true => "true"
  | bool false => "false"
  | number x => Number.text x
  | string s => s

/-- Whether a value counts as true in a condition. -/
def isTruthy : Value → Bool
  | nil => false
  | bool b => b
  | number _ => true
  | string _ => true

/-- Equality in the language. Numbers are compared as doubles: zero equals negative zero, and not a
number differs from itself. -/
def equals : Value → Value → Bool
  | nil, nil => true
  | bool a, bool b => a == b
  | number x, number y => x == y
  | string s, string t => s == t
  | _, _ => false

end Value

end Lox
