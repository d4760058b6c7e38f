import Lox.CommandLine.Command

/-!
# The program

The command on real arguments, files and streams. All decisions are made by the command itself; here
are only reading and writing.
-/

namespace Lox

namespace CommandLine

/-- How often a loop may go round: more often than any run can. -/
def loopBound : Nat := 4611686018427387904

/-- The number of a refusal of the system, which is given with either sign. -/
def errorNumber (code : UInt32) : Nat := min code.toNat (0 - code).toNat

/-- The fault that the system's refusal to read a file is. -/
def faultOf : IO.Error → ReadFault
  | .noFileOrDirectory .. => .notFound
  | .inappropriateType _ code _ => if errorNumber code = 20 then .notFolder else .isFolder
  | .invalidArgument _ code words =>
    if errorNumber code = 36 then .nameTooLong else .refused words (errorNumber code)
  | .permissionDenied _ code _ => .refused "Permission denied" (errorNumber code)
  | e => .refused (toString e) 5

/-- The contents of a file. -/
def readScript (path : String) : IO (Except ReadFault ByteArray) := do
  try
    return .ok (← IO.FS.readBinFile path)
  catch e =>
    return .error (faultOf e)

/-- The bytes up to the next line feed, that one included. -/
partial def readLine (input : IO.FS.Stream) (line : ByteArray) : IO ByteArray := do
  let bytes ← input.read 1
  let line := line ++ bytes
  if bytes.isEmpty || bytes.toList = [10] then return line else readLine input line

/-- Writes what a session has put out since it held `before` bytes. -/
def emit (before : Nat) (s : Session) : IO Unit := do
  let held := s.machine.sink.held
  let out ← IO.getStdout
  out.write (held.extract before held.size)
  out.flush

/-- Leaves with a complaint. -/
def leave (status : Status) (complaint : String) : IO UInt32 := do
  IO.eprint complaint
  return UInt32.ofNat status.code

/-- Writes what a step of the session puts out, and goes on unless it had to stop. -/
def perform (step : Session.Step Unit) (s : Session) (next : Session → IO UInt32) : IO UInt32 := do
  let before := s.machine.sink.held.size
  match step s with
  | .ok _ s =>
    emit before s
    next s
  | .error e s =>
    emit before s
    leave .ioError (stopMessage e ++ "\n")

/-- The prompt on the standard streams. -/
partial def prompt (s : Session) : IO UInt32 :=
  perform (display "> ") s fun s => do
    let line ← readLine (← IO.getStdin) ByteArray.empty
    if line.isEmpty then perform (display "\n") s fun _ => leave .success ""
    else
      match String.fromUTF8? line with
      | none => leave .ioError (notTextMessage ++ "\n")
      | some text => perform (runLine loopBound text) s prompt

/-- Runs the command. -/
def start (args : List String) : IO UInt32 := do
  match Request.ofArguments? args with
  | none => leave .usage description
  | some .describe =>
    IO.print description
    leave .success ""
  | some (.run dumpsTrees (some script)) =>
    let result := runScript loopBound dumpsTrees script (← readScript script)
    (← IO.getStdout).write result.output
    leave result.status result.complaint
  | some (.run dumpsTrees none) => prompt (Session.start {} dumpsTrees)

end CommandLine

end Lox

/-- The entry point. -/
def main (args : List String) : IO UInt32 := Lox.CommandLine.start args
