import Lox.Parser.Expression

/-!
# Parsing statements

A statement that cannot be read is given up: its failure is logged, tokens are skipped up to a place
where a statement may start, and reading goes on there. This happens at the nearest declaration
around the failure, so a block survives a malformed statement inside it.

A counting loop is read as the other statements that it stands for: its increment follows its body
in a block of their own, a missing condition is true, and its initial part stands before the loop in
a block around both.
-/

namespace Lox

namespace Parser

/-! ### Recovery -/

/-- The keywords a statement may start with. -/
def startsStatement : Kind → Bool
  | .keyword .classKw | .keyword .funKw | .keyword .varKw | .keyword .forKw => true
  | .keyword .ifKw | .keyword .whileKw | .keyword .printKw | .keyword .returnKw => true
  | _ => false

/-- Skips one token, and more until the last one skipped is a semicolon or the next one starts a
statement. -/
def skipStatement : List Token → List Token
  | [] => []
  | [_] => []
  | t :: next :: ts =>
    if t.kind = .symbol .semicolon || startsStatement next.kind then next :: ts
    else skipStatement (next :: ts)

/-- Reads with `p`. If that fails, logs the failure and skips the statement. -/
def recovering {α : Type} (p : Parser α) : Parser (Option α) := fun ts =>
  match p ts with
  | ⟨.ok a, rest, log⟩ => ⟨.ok (some a), rest, log⟩
  | ⟨.error f, rest, log⟩ => ⟨.ok none, skipStatement rest, log ++ [f]⟩

/-! ### Declarations and lists of them -/

/-- The part of a declaration after `var`. -/
def varDeclaration (expression : Parser Expr) : Parser Stmt
  | [] => fail .variableName []
  | t :: ts =>
    match t.kind with
    | .identifier _ =>
      (do
        let initial ← initialValue
        expect (.symbol .semicolon) .semicolonAfterDeclaration
        return .declare t initial : Parser Stmt) ts
    | _ => fail .variableName (t :: ts)
where
  /-- The value after `=`, if there is one. -/
  initialValue : Parser (Option Expr)
    | [] => ⟨.ok none, [], []⟩
    | t :: ts =>
      if t.kind = .symbol .equal then (expression ts).map some else ⟨.ok none, t :: ts, []⟩

/-- A variable declaration or a statement; nothing if it had to be given up. -/
def declaration (expression : Parser Expr) (statement : Parser Stmt) : Parser (Option Stmt) :=
  recovering fun ts =>
    match ts with
    | [] => statement []
    | t :: ts => if t.kind = .keyword .varKw then varDeclaration expression ts else statement (t :: ts)

/-- The declarations up to the end of the input or to a token that `stops` says so of. -/
def declarations (stops : Kind → Bool) (declare : Parser (Option Stmt)) : Nat → Parser (List Stmt)
  | bound + 1, t :: ts =>
    if stops t.kind then ⟨.ok [], t :: ts, []⟩
    else
      (do
        let first ← declare
        let others ← declarations stops declare bound
        return first.toList ++ others : Parser (List Stmt)) (t :: ts)
  | _, ts => ⟨.ok [], ts, []⟩

/-! ### Statements -/

/-- An expression and a semicolon. -/
def exprStatement (expression : Parser Expr) : Parser Stmt := do
  let e ← expression
  expect (.symbol .semicolon) .semicolonAfterExpression
  return .expr e

/-- The part of a print statement after `print`. -/
def printStatement (expression : Parser Expr) : Parser Stmt := do
  let e ← expression
  expect (.symbol .semicolon) .semicolonAfterValue
  return .print e

/-- The part of a block after its opening brace. -/
def block (bound : Nat) (declare : Parser (Option Stmt)) : Parser Stmt := do
  let body ← declarations (· = .symbol .rightBrace) declare bound
  expect (.symbol .rightBrace) .braceAfterBlock
  return .block body

/-- The part of a conditional after its first branch. An `else` belongs to the nearest `if` that has
none. -/
def otherwise (statement : Parser Stmt) (condition : Expr) (yes : Stmt) : Parser Stmt
  | [] => ⟨.ok (.ifThen condition yes), [], []⟩
  | t :: ts =>
    if t.kind = .keyword .elseKw then (statement ts).map (.ifElse condition yes)
    else ⟨.ok (.ifThen condition yes), t :: ts, []⟩

/-- The part of a conditional after `if`. -/
def conditional (expression : Parser Expr) (statement : Parser Stmt) : Parser Stmt := do
  expect (.symbol .leftParen) .parenAfterIf
  let condition ← expression
  expect (.symbol .rightParen) .parenAfterIfCondition
  let yes ← statement
  otherwise statement condition yes

/-- The part of a loop after `while`. -/
def whileLoop (expression : Parser Expr) (statement : Parser Stmt) : Parser Stmt := do
  expect (.symbol .leftParen) .parenAfterWhile
  let condition ← expression
  expect (.symbol .rightParen) .parenAfterCondition
  let body ← statement
  return .loop condition body

/-! ### Counting loops -/

/-- The statement that a counting loop stands for. -/
def countingLoop (initial : Option Stmt) (condition : Option Expr) (increment : Option Expr)
    (body : Stmt) : Stmt :=
  let body := match increment with
    | some e => .block [body, .expr e]
    | none => body
  let loop := .loop (condition.getD (.literal (.bool true))) body
  match initial with
  | some s => .block [s, loop]
  | none => loop

/-- The part of a counting loop before its condition. -/
def loopInitial (expression : Parser Expr) : Parser (Option Stmt)
  | [] => (exprStatement expression []).map some
  | t :: ts =>
    match t.kind with
    | .symbol .semicolon => ⟨.ok none, ts, []⟩
    | .keyword .varKw => (varDeclaration expression ts).map some
    | _ => (exprStatement expression (t :: ts)).map some

/-- An expression, or nothing when a token of the given kind comes next. -/
def exprBefore (kind : Kind) (expression : Parser Expr) : Parser (Option Expr)
  | [] => (expression []).map some
  | t :: ts => if t.kind = kind then ⟨.ok none, t :: ts, []⟩ else (expression (t :: ts)).map some

/-- The part of a counting loop after `for`. -/
def forLoop (expression : Parser Expr) (statement : Parser Stmt) : Parser Stmt := do
  expect (.symbol .leftParen) .parenAfterFor
  let initial ← loopInitial expression
  let condition ← exprBefore (.symbol .semicolon) expression
  expect (.symbol .semicolon) .semicolonAfterLoopCondition
  let increment ← exprBefore (.symbol .rightParen) expression
  expect (.symbol .rightParen) .parenAfterForClauses
  let body ← statement
  return countingLoop initial condition increment body

/-! ### The knot -/

/-- A statement of at most `bound` tokens. -/
def statement : Nat → Parser Stmt
  | 0, ts => fail .expression ts
  | _ + 1, [] => fail .expression []
  | bound + 1, t :: ts =>
    match t.kind with
    | .keyword .ifKw => conditional (expression bound) (statement bound) ts
    | .keyword .printKw => printStatement (expression bound) ts
    | .symbol .leftBrace =>
      block bound (declaration (expression bound) (statement bound)) ts
    | .keyword .whileKw => whileLoop (expression bound) (statement bound) ts
    | .keyword .forKw => forLoop (expression bound) (statement bound) ts
    | _ => exprStatement (expression (bound + 1)) (t :: ts)

end Parser

end Lox
