import Lox.CommandLine.Arguments
import Lox.CommandLine.Folder
import Lox.Session
import Lox.Utf8

/-!
# The command

With a script, the command runs its text and ends with a status that tells how it went. Without one
it is a prompt: each line of input is run as a text of its own, with the flags reset before it, and
an error does not end the prompt. Reports of what is wrong with a program are output like any other;
only what is wrong with the command's own input goes to the error stream.
-/

namespace Lox

namespace CommandLine

/-- How the command ended. -/
inductive Status where
  | success
  | usage
  | badProgram
  | noScript
  | runtimeError
  | ioError
deriving DecidableEq

/-- The number that the command ends with. -/
def Status.code : Status → Nat
  | .success => 0
  | .usage => 1
  | .badProgram => 65
  | .noScript => 66
  | .runtimeError => 70
  | .ioError => 74

/-- What the command leaves behind: its status, its output, and what it says about itself. -/
structure Result where
  status : Status
  output : ByteArray
  complaint : String

/-- The description of the command. -/
def description : String :=
  "Tree-walking interpreter for Lox\n\nlox [--print-ast] [script]\n"

/-- The words for a run that stopped early. -/
def stopMessage : Stop → String
  | .fault e => e.report
  | .refused f => f.cause
  | .exhausted => "a loop went round too often"

/-- The words for input that is no text. -/
def notTextMessage : String := ReadFault.notText.message

/-! ### Scripts -/

/-- The text of a script. -/
def scriptText (contents : Except ReadFault ByteArray) : Except ReadFault String := do
  match String.fromUTF8? (← contents) with
  | some text => return text
  | none => throw .notText

/-- The status of a session after its script. -/
def scriptStatus (s : Session) : Status :=
  if s.hadError then .badProgram
  else if s.hadRuntimeError then .runtimeError
  else .success

/-- Goes on with a session, unless it had to stop. -/
def orStop (next : Session → Result) : EStateM.Result Stop Session Unit → Result
  | .ok _ s => next s
  | .error e s => ⟨.ioError, s.machine.sink.held, stopMessage e ++ "\n"⟩

/-- Runs a script with the given name and contents. -/
def runScript (bound : Nat) (dumpsTrees : Bool) (name : String)
    (contents : Except ReadFault ByteArray) : Result :=
  match scriptText contents with
  | .error f =>
    ⟨.noScript, ByteArray.empty, "Could not read '" ++ name ++ "': " ++ f.message ++ "\n"⟩
  | .ok text =>
    orStop (fun s => ⟨scriptStatus s, s.machine.sink.held, ""⟩)
      (Session.run bound text (Session.start {} dumpsTrees))

/-! ### The prompt -/

/-- Writes a text as it is. -/
def display (text : String) : Session.Step Unit :=
  Session.onMachine fun _ => Run.output (Sink.write text.toUTF8)

/-- Runs one line of input. -/
def runLine (bound : Nat) (line : String) : Session.Step Unit := do
  modify Session.resetErrors
  Session.run bound line

/-- Asks for a line and runs it, until there are no more. -/
def runLines (bound : Nat) : List (List UInt8) → Session → Result
  | [], s =>
    orStop (fun s => ⟨.success, s.machine.sink.held, ""⟩)
      ((do display "> "; display "\n" : Session.Step Unit) s)
  | line :: lines, s =>
    orStop (fun s =>
        match String.fromUTF8? line.toByteArray with
        | none => ⟨.ioError, s.machine.sink.held, notTextMessage ++ "\n"⟩
        | some text => orStop (runLines bound lines) (runLine bound text s))
      (display "> " s)

/-- Runs the prompt on the bytes of its input. -/
def runPrompt (bound : Nat) (dumpsTrees : Bool) (input : ByteArray) : Result :=
  runLines bound (Utf8.lines input.toList) (Session.start {} dumpsTrees)

/-! ### The whole command -/

/-- Runs the command on arguments, files and input. -/
def run (bound : Nat) (args : List String) (files : Folder) (input : ByteArray) : Result :=
  match Request.ofArguments? args with
  | none => ⟨.usage, ByteArray.empty, description⟩
  | some .describe => ⟨.success, description.toUTF8, ""⟩
  | some (.run dumpsTrees (some script)) =>
    runScript bound dumpsTrees script (files.read script)
  | some (.run dumpsTrees none) => runPrompt bound dumpsTrees input

end CommandLine

end Lox
