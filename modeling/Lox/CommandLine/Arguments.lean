/-!
# Arguments

The command takes one option, `--print-ast`, and at most one script, in any order. An argument that
starts with a dash is an option, except that a dash alone is a script, and that after the argument
`--` every argument is a script. An option may be written with more dashes, and with a value after
`=`, which is ignored. `-h`, `--help`, `-V` and `--version` ask for a description of the command,
and nothing after them is looked at.
-/

namespace Lox

namespace CommandLine

/-- What the command is asked to do. -/
inductive Request where
  /-- Run a script, or a prompt when there is none. -/
  | run (dumpsTrees : Bool) (script : Option String)
  /-- Describe the command. -/
  | describe
deriving DecidableEq

/-- The arguments seen so far: how often the option was given, the script, and whether options have
ended. -/
structure Seen where
  dumps : Nat := 0
  script : Option String := none
  optionsEnded : Bool := false

/-- What an argument is. -/
inductive Argument where
  | dump
  | describe
  | endOfOptions
  | unknown
  | script (name : String)
deriving DecidableEq

namespace Argument

/-- The option with a name, the dashes before it left out. -/
def ofLongName (cs : List Char) : Argument :=
  let name := String.ofList (cs.takeWhile (· ≠ '='))
  if name = "print-ast" then dump
  else if name = "help" || name = "version" then describe
  else unknown

/-- An argument before the end of the options. -/
def ofChars : List Char → Argument
  | ['-', '-'] => endOfOptions
  | '-' :: '-' :: cs => ofLongName (cs.dropWhile (· = '-'))
  | '-' :: c :: _ => if c = 'h' || c = 'V' then describe else unknown
  | cs => script (String.ofList cs)

end Argument

/-- Reads arguments from left to right. -/
def readArguments : Seen → List String → Option Request
  | seen, [] => if seen.dumps ≤ 1 then some (.run (seen.dumps = 1) seen.script) else none
  | seen, arg :: args =>
    match if seen.optionsEnded then .script arg else Argument.ofChars arg.toList with
    | .dump => readArguments { seen with dumps := seen.dumps + 1 } args
    | .describe => some .describe
    | .endOfOptions => readArguments { seen with optionsEnded := true } args
    | .unknown => none
    | .script name =>
      if seen.script.isNone then readArguments { seen with script := some name } args else none

/-- What the arguments ask for; nothing if they make no sense. -/
def Request.ofArguments? (args : List String) : Option Request := readArguments {} args

end CommandLine

end Lox
