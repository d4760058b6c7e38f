import Lox.Program
import Lox.Token.Scan

/-!
# Events

What an observer of a run is told, in the order it happens: what reading the source gave, each place
where reading started again after an error, each block that is entered with its depth, and why a
program was not run or stopped.
-/

namespace Lox

/-- Something that an observer is told. -/
inductive Event where
  /-- The source ends inside a comment; the line it ends on. -/
  | openComment (line : Int32)
  /-- The source was read: how many tokens and errors it has. -/
  | scanned (tokens errors : Nat)
  /-- A statement is given up: the line of the error, and the kind of token it was noticed at. -/
  | recovering (line : Int32) (found : Kind)
  /-- The tokens were read: how many statements and errors they have. -/
  | parsed (statements errors : Nat)
  /-- The program is not run: how many errors of either sort it has. -/
  | notExecuting (lexical grammatical : Nat)
  /-- A block is entered: how many scopes there are in it, its own included. -/
  | enteringBlock (depth : Nat)
  /-- The run stopped: the line and lexeme of the error. -/
  | runtimeError (line : Int32) (lexeme : String)
deriving DecidableEq

namespace Event

/-- The events of reading the tokens of a source text. -/
def ofScan (s : Scan) : List Event :=
  (if s.openComment then [openComment s.endLine] else []) ++
    [scanned s.tokens.length s.errors.length]

/-- The events of reading a program. An invalid target of an assignment does not make the reader
start again. -/
def ofProgram (p : Program) : List Event :=
  p.errors.filterMap (fun e =>
      if e.fault = .assignmentTarget then none else some (recovering e.line e.found.kind)) ++
    [parsed p.statements.length p.errors.length]

end Event

end Lox
