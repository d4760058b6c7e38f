import Lox.Diagnostic
import Lox.Value

/-!
# Operators

What operators do to values. The kind of the operator's token says which operation is meant, its
lexeme is only for messages, and a kind that stands for no operation is a fault like any other.
-/

namespace Lox

namespace Operator

/-- A fault at an operator. -/
def faultAt {α : Type} (op : Token) (f : RuntimeFault) : Except RuntimeError α := .error ⟨f, op⟩

/-- The value of a prefix operator on a value. -/
def unary (op : Token) (v : Value) : Except RuntimeError Value :=
  match op.kind with
  | .symbol .minus =>
    match v with
    | .number x => .ok (.number (-x))
    | _ => faultAt op .operandNotNumber
  | .symbol .bang => .ok (.bool !v.isTruthy)
  | _ => faultAt op .unknownOperator

/-- The value of an operator on two numbers. -/
def numeric (op : Token) (x y : Float) : Except RuntimeError Value :=
  match op.kind with
  | .symbol .minus => .ok (.number (x - y))
  | .symbol .slash => .ok (.number (x / y))
  | .symbol .star => .ok (.number (x * y))
  | .symbol .plus => .ok (.number (x + y))
  | .symbol .greater => .ok (.bool (y < x))
  | .symbol .greaterEqual => .ok (.bool (y ≤ x))
  | .symbol .less => .ok (.bool (x < y))
  | .symbol .lessEqual => .ok (.bool (x ≤ y))
  | _ => faultAt op .unknownOperator

/-- The value of a binary operator on two values. Any two values can be compared for equality; the
other operators want two numbers, and `+` takes two texts as well. -/
def binary (op : Token) (l r : Value) : Except RuntimeError Value :=
  match op.kind with
  | .symbol .equalEqual => .ok (.bool (l.equals r))
  | .symbol .bangEqual => .ok (.bool !(l.equals r))
  | kind =>
    match l, r with
    | .number x, .number y => numeric op x y
    | .string s, .string t =>
      if kind = .symbol .plus then .ok (.string (s ++ t)) else faultAt op .operandsNotNumbers
    | _, _ =>
      if kind = .symbol .plus then faultAt op .operandsNotAddable
      else faultAt op .operandsNotNumbers

/-- Whether a logical operator has the value of its left operand, when that is `v`. -/
def decides (op : Token) (v : Value) : Except RuntimeError Bool :=
  match op.kind with
  | .keyword .orKw => .ok v.isTruthy
  | .keyword .andKw => .ok !v.isTruthy
  | _ => faultAt op .unknownOperator

end Operator

end Lox
