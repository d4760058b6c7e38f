import Lox.Environment
import Lox.Operator
import Lox.Tree

/-!
# Evaluation of expressions

An expression is evaluated in an environment. Operands are evaluated from left to right, a logical
operator may leave out its right one, and only an assignment changes anything: the value of the
variable in the nearest scope that has it. Evaluation stops at the first fault.
-/

namespace Lox

/-- A computation over the scopes that may stop with a runtime error. -/
abbrev Eval := EStateM RuntimeError Scopes

namespace Eval

/-- The result of an operation that leaves the scopes as they are. -/
@[inline]
def ofExcept {α : Type} : Except RuntimeError α → Eval α
  | .ok a => fun s => .ok a s
  | .error e => fun s => .error e s

/-- The value of the variable that a token names. -/
def lookup (env : Environment) (t : Token) : Eval Value := fun s =>
  match s.lookup? env t.lexeme with
  | some v => .ok v s
  | none => .error ⟨.undefinedVariable, t⟩ s

/-- Assigns a value to the variable that a token names. -/
def assign (env : Environment) (t : Token) (v : Value) : Eval Unit := fun s =>
  match s.assign env t.lexeme v with
  | (true, s) => .ok () s
  | (false, s) => .error ⟨.undefinedVariable, t⟩ s

end Eval

/-- The value of an expression in an environment. -/
def Expr.eval (env : Environment) : Expr → Eval Value
  | .literal v => return v
  | .grouping e => e.eval env
  | .name t => Eval.lookup env t
  | .assign t e => do
    let v ← e.eval env
    Eval.assign env t v
    return v
  | .unary op e => do
    let v ← e.eval env
    Eval.ofExcept (Operator.unary op v)
  | .binary l op r => do
    let x ← l.eval env
    let y ← r.eval env
    Eval.ofExcept (Operator.binary op x y)
  | .logical l op r => do
    let v ← l.eval env
    if ← Eval.ofExcept (Operator.decides op v) then return v else r.eval env

end Lox
