import Lox.Parser.Statement

/-!
# Programs

A list of tokens is read as a program up to its first end of input. What stands after that does not
matter, and a list without one is read as if an end of input on line zero followed it.
-/

namespace Lox

/-- What reading a program gives: the statements that could be read, and the errors. -/
structure Program where
  statements : List Stmt
  errors : List GrammarError

/-- The tokens before the first end of input. -/
def Program.body (ts : List Token) : List Token := ts.takeWhile fun t => !t.isEof

/-- The first end of input. -/
def Program.endToken (ts : List Token) : Token := (ts.find? Token.isEof).getD ⟨.eof, "", 0⟩

/-- The declarations of a list of tokens without an end of input. -/
def Parser.program (ts : List Token) : Reply (List Stmt) :=
  let bound := ts.length
  declarations (fun _ => false) (declaration (expression bound) (statement bound)) bound ts

/-- Reads a program. -/
def parse (ts : List Token) : Program :=
  let reply := Parser.program (Program.body ts)
  ⟨(reply.result.toOption).getD [], reply.log.map (Failure.toError (Program.endToken ts))⟩

end Lox
