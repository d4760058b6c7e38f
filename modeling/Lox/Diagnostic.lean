import Lox.Token

/-!
# Diagnostics

What can be wrong with a program, and the words that say so. A mistake is found in the text, in the
grammar or while the program runs; each of the three has a list of causes, a message for every cause
and one form of report:

* `[line N] Error: message` for the text,
* `[line N] Error at 'lexeme': message` for the grammar, with ` at end` for the end of the input,
* `message`, and on the next line `[line N]`, for a run.
-/

namespace Lox

/-! ### Places and reports -/

/-- The place a grammatical mistake is reported at. -/
inductive Location where
  | token (lexeme : String)
  | endOfInput
deriving DecidableEq

namespace Location

/-- The place of a token. -/
def ofToken (t : Token) : Location := if t.isEof then endOfInput else token t.lexeme

/-- The words for a place, as they follow the word `Error`. -/
def text : Location → String
  | token lexeme => " at '" ++ lexeme ++ "'"
  | endOfInput => " at end"

end Location

namespace Report

/-- A line in brackets. -/
def lineMark (line : Int32) : String := "[line " ++ toString line.toInt ++ "]"

/-- The report of a mistake in the text. -/
def lexical (line : Int32) (message : String) : String :=
  lineMark line ++ " Error: " ++ message

/-- The report of a mistake in the grammar. -/
def grammatical (line : Int32) (place : Location) (message : String) : String :=
  lineMark line ++ " Error" ++ place.text ++ ": " ++ message

/-- The report of a mistake in a run. -/
def runtime (line : Int32) (message : String) : String :=
  message ++ "\n" ++ lineMark line

end Report

/-! ### Mistakes in the text -/

/-- What can be wrong with a piece of text. -/
inductive LexicalFault where
  | unexpectedCharacter
  | unterminatedString
deriving DecidableEq

/-- The message for a fault in the text. -/
def LexicalFault.message : LexicalFault → String
  | .unexpectedCharacter => "Unexpected character."
  | .unterminatedString => "Unterminated string."

/-- A faulty piece of text, and the line it starts on. -/
structure LexicalError where
  fault : LexicalFault
  line : Int32
deriving DecidableEq

namespace LexicalError

/-- The message for a lexical error. -/
def message (e : LexicalError) : String := e.fault.message

/-- The report of a lexical error. -/
def report (e : LexicalError) : String := Report.lexical e.line e.message

end LexicalError

/-! ### Mistakes in the grammar -/

/-- What the grammar wants where something else stands. -/
inductive GrammarFault where
  | expression
  | variableName
  | semicolonAfterDeclaration
  | semicolonAfterExpression
  | semicolonAfterValue
  | semicolonAfterLoopCondition
  | parenAfterExpression
  | parenAfterIf
  | parenAfterIfCondition
  | parenAfterWhile
  | parenAfterCondition
  | parenAfterFor
  | parenAfterForClauses
  | braceAfterBlock
  | assignmentTarget
deriving DecidableEq

/-- The message for a fault in the grammar. -/
def GrammarFault.message : GrammarFault → String
  | .expression => "Expect expression."
  | .variableName => "Expect variable name."
  | .semicolonAfterDeclaration => "Expect ';' after variable declaration."
  | .semicolonAfterExpression => "Expect ';' after expression."
  | .semicolonAfterValue => "Expect ';' after value."
  | .semicolonAfterLoopCondition => "Expect ';' after loop condition."
  | .parenAfterExpression => "Expect ')' after expression."
  | .parenAfterIf => "Expect '(' after 'if'."
  | .parenAfterIfCondition => "Expect ')' after if condition."
  | .parenAfterWhile => "Expect '(' after 'while'."
  | .parenAfterCondition => "Expect ')' after condition."
  | .parenAfterFor => "Expect '(' after 'for'."
  | .parenAfterForClauses => "Expect ')' after for clauses."
  | .braceAfterBlock => "Expect '\x7d' after block."
  | .assignmentTarget => "Invalid assignment target."

/-- A fault in the grammar, and the token it was noticed at. -/
structure GrammarError where
  fault : GrammarFault
  found : Token
deriving DecidableEq

namespace GrammarError

/-- The line a grammar error is reported on. -/
def line (e : GrammarError) : Int32 := e.found.line

/-- The place a grammar error is reported at. -/
def location (e : GrammarError) : Location := Location.ofToken e.found

/-- The message for a grammar error. -/
def message (e : GrammarError) : String := e.fault.message

/-- The report of a grammar error. -/
def report (e : GrammarError) : String := Report.grammatical e.line e.location e.message

end GrammarError

/-! ### Mistakes in a run -/

/-- What can go wrong at a token while a program runs. -/
inductive RuntimeFault where
  | operandNotNumber
  | operandsNotNumbers
  | operandsNotAddable
  | unknownOperator
  | undefinedVariable
deriving DecidableEq

/-- The message for a fault at a token with the given lexeme. -/
def RuntimeFault.message (lexeme : String) : RuntimeFault → String
  | .operandNotNumber => "Operand must be a number."
  | .operandsNotNumbers => "Operands must be numbers."
  | .operandsNotAddable => "Operands must be two numbers or two strings."
  | .unknownOperator => "Unknown operator '" ++ lexeme ++ "'."
  | .undefinedVariable => "Undefined variable '" ++ lexeme ++ "'."

/-- A fault in a run, and the token it arose at. -/
structure RuntimeError where
  fault : RuntimeFault
  token : Token
deriving DecidableEq

namespace RuntimeError

/-- The line a runtime error is reported on. -/
def line (e : RuntimeError) : Int32 := e.token.line

/-- The lexeme of the token a runtime error arose at. -/
def lexeme (e : RuntimeError) : String := e.token.lexeme

/-- The message for a runtime error. -/
def message (e : RuntimeError) : String := e.fault.message e.lexeme

/-- The report of a runtime error. -/
def report (e : RuntimeError) : String := Report.runtime e.line e.message

end RuntimeError

end Lox
