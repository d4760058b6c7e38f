import Lox.Execution
import Lox.Tree.Dump

/-!
# Sessions

A session runs one source text after the other. Its global variables live on from run to run, and so
do two flags: that some text could not be read, and that some run stopped with a runtime error. Once
the first flag is set no program is run until the flags are reset, but the errors of every text are
still reported.

A run does the following in this order, and ends at the first line that the sink refuses: it reports
the errors of the text and those of the grammar, sets the flag if there were any, dumps the trees if
the session is told to, and executes the program. A runtime error sets its flag before it is
reported.
-/

namespace Lox

/-- A session: its global environment, the machine it runs on, its two flags, and whether it dumps
the trees of a program before it runs it. -/
structure Session where
  globals : Environment
  machine : Machine
  hadError : Bool
  hadRuntimeError : Bool
  dumpsTrees : Bool

namespace Session

/-- A new session over a sink. -/
def start (sink : Sink) (dumpsTrees : Bool) : Session :=
  match Scopes.create {} with
  | (globals, scopes) =>
    { globals, machine := { scopes, sink }, hadError := false, hadRuntimeError := false, dumpsTrees }

/-- Clears both flags. -/
def resetErrors (s : Session) : Session := { s with hadError := false, hadRuntimeError := false }

/-- A computation in a session that may stop early. -/
abbrev Step := EStateM Stop Session

/-- A computation on the machine of a session. -/
def onMachine {α : Type} (x : Environment → Run α) : Step α
  | ⟨globals, machine, hadError, hadRuntimeError, dumpsTrees⟩ =>
    match x globals machine with
    | .ok a machine => .ok a ⟨globals, machine, hadError, hadRuntimeError, dumpsTrees⟩
    | .error e machine => .error e ⟨globals, machine, hadError, hadRuntimeError, dumpsTrees⟩

/-- Tells the observer of events. -/
def tell (events : List Event) : Step Unit :=
  onMachine fun _ => events.forM Run.tell

/-- Writes lines of text. -/
def writeLines (lines : List String) : Step Unit :=
  onMachine fun _ => lines.forM Run.writeLine

/-- Reports the errors of a source text, and sets the flag if there are any. -/
def report (source : Scan) (program : Program) : Step Unit := do
  writeLines (source.errors.map LexicalError.report)
  writeLines (program.errors.map GrammarError.report)
  unless source.errors.isEmpty && program.errors.isEmpty do
    tell [.notExecuting source.errors.length program.errors.length]
    modify fun s => { s with hadError := true }

/-- Flags and reports a runtime error. -/
def failWith (e : RuntimeError) : Step Unit := do
  tell [.runtimeError e.line e.lexeme]
  modify fun s => { s with hadRuntimeError := true }
  writeLines [e.report]

/-- Goes on where a program has ended. A runtime error does not stop the session. -/
def finish : EStateM.Result Stop Session Unit → EStateM.Result Stop Session Unit
  | .error (.fault e) s => failWith e s
  | result => result

/-- Executes a program, every loop at most `bound` times round. -/
def execute (bound : Nat) (program : List Stmt) : Step Unit := fun s =>
  finish (onMachine (fun globals => interpret bound globals program) s)

/-- Dumps and executes a program, unless an error is on record. -/
def runProgram (bound : Nat) (program : List Stmt) : Step Unit := do
  unless (← get).hadError do
    if (← get).dumpsTrees then writeLines (Stmt.dumpEach program)
    execute bound program

/-- Runs a source text. -/
def run (bound : Nat) (source : String) : Step Unit := do
  let scanned := scan source
  tell (Event.ofScan scanned)
  let program := parse scanned.tokens
  tell (Event.ofProgram program)
  report scanned program
  runProgram bound program.statements

/-- The events of a session so far, in order. -/
def events (s : Session) : List Event := s.machine.events.reverse

end Session

end Lox
