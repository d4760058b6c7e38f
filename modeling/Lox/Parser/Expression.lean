import Lox.Parser.Reply
import Lox.Tree

/-!
# Parsing expressions

From loose to tight: assignment, which groups to the right; six levels of binary operators, which
group to the left; prefix operators; and at the bottom literals, names and expressions in
parentheses.

What stands to the left of `=` is read as an operand of the loosest binary level. Only afterwards is
it looked at: if it is not a name the fault is logged and the left side stands for the whole.

The parser of a level is built from the parser of the next tighter one, and the knot is tied by a
bound on the number of tokens that are left. A list as long as the bound is read in full.
-/

namespace Lox

/-- The levels of binary operators, from loose to tight. -/
inductive Level where
  | or | and | equality | comparison | term | factor
deriving DecidableEq

namespace Level

/-- All levels, from loose to tight. -/
def all : List Level := [or, and, equality, comparison, term, factor]

/-- The level of a binary operator. -/
def of? : Kind → Option Level
  | .keyword .orKw => some or
  | .keyword .andKw => some and
  | .symbol .bangEqual | .symbol .equalEqual => some equality
  | .symbol .greater | .symbol .greaterEqual | .symbol .less | .symbol .lessEqual => some comparison
  | .symbol .minus | .symbol .plus => some term
  | .symbol .slash | .symbol .star => some factor
  | _ => none

/-- The node for an operator of a level. -/
def node : Level → Expr → Token → Expr → Expr
  | or | and => .logical
  | _ => .binary

end Level

namespace Parser

/-- The value of a token that is a literal. -/
def literal? : Kind → Option Value
  | .keyword .falseKw => some (.bool false)
  | .keyword .trueKw => some (.bool true)
  | .keyword .nilKw => some .nil
  | .number x => some (.number x)
  | .string s => some (.string s)
  | _ => none

/-- Whether a token is a prefix operator. -/
def isUnary : Kind → Bool
  | .symbol .bang | .symbol .minus => true
  | _ => false

/-- A literal, a name, or an expression in parentheses. -/
def primary (expression : Parser Expr) : Parser Expr
  | [] => fail .expression []
  | t :: ts =>
    match t.kind with
    | .identifier _ => ⟨.ok (.name t), ts, []⟩
    | .symbol .leftParen =>
      (do
        let e ← expression
        expect (.symbol .rightParen) .parenAfterExpression
        return .grouping e : Parser Expr) ts
    | kind =>
      match literal? kind with
      | some v => ⟨.ok (.literal v), ts, []⟩
      | none => fail .expression (t :: ts)

/-- Prefix operators before a primary expression. -/
def unary (expression : Parser Expr) : Parser Expr
  | [] => primary expression []
  | t :: ts =>
    if isUnary t.kind then (unary expression ts).map (.unary t)
    else primary expression (t :: ts)

/-- What follows the operand `left` of a level: any number of operators of that level, each with an
operand. -/
def operators (level : Level) (operand : Parser Expr) : Nat → Expr → Parser Expr
  | bound + 1, left, t :: ts =>
    if Level.of? t.kind = some level then
      (do
        let right ← operand
        operators level operand bound (level.node left t right) : Parser Expr) ts
    else ⟨.ok left, t :: ts, []⟩
  | _, left, ts => ⟨.ok left, ts, []⟩

/-- An expression of a level, over operands of the next one. -/
def leveled (bound : Nat) (level : Level) (operand : Parser Expr) : Parser Expr := do
  let left ← operand
  operators level operand bound left

/-- An expression of the loosest binary level. -/
def disjunction (bound : Nat) (expression : Parser Expr) : Parser Expr :=
  Level.all.foldr (leveled bound) (unary expression)

/-- The assignment of `value` to `left` at the token `equals`. -/
def assignment (left : Expr) (equals : Token) (value : Expr) : Parser Expr :=
  match left with
  | .name target => pure (.assign target value)
  | _ => do
    note .assignmentTarget equals
    return left

/-- What follows the left side of an assignment. -/
def assigned (expression : Parser Expr) (left : Expr) : Parser Expr
  | [] => ⟨.ok left, [], []⟩
  | t :: ts =>
    if t.kind = .symbol .equal then
      (do
        let value ← expression
        assignment left t value : Parser Expr) ts
    else ⟨.ok left, t :: ts, []⟩

/-- An expression of at most `bound` tokens. -/
def expression : Nat → Parser Expr
  | 0, ts => fail .expression ts
  | bound + 1, ts =>
    (do
      let left ← disjunction bound (expression bound)
      assigned (expression bound) left : Parser Expr) ts

end Parser

end Lox
