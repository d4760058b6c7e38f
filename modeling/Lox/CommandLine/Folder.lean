/-!
# Files

The files of one folder by name, and what reading a path gives. A path is read from the folder: its
parts are divided by slashes, an empty part and a dot stay where they are, and a file has no parts
below it. Outside the folder, the folders above it are there and no file is.
-/

namespace Lox

namespace CommandLine

/-- Why a file cannot be read. -/
inductive ReadFault where
  | notFound
  | notFolder
  | isFolder
  | nameTooLong
  | notText
  /-- Any other refusal of the system, with its own words and number. -/
  | refused (words : String) (number : Nat)
deriving DecidableEq

/-- The words for a file that cannot be read. -/
def ReadFault.message : ReadFault → String
  | .notFound => "No such file or directory (os error 2)"
  | .notFolder => "Not a directory (os error 20)"
  | .isFolder => "Is a directory (os error 21)"
  | .nameTooLong => "File name too long (os error 36)"
  | .notText => "stream did not contain valid UTF-8"
  | .refused words number => words ++ " (os error " ++ toString number ++ ")"

/-- Files by name. -/
abbrev Folder := List (String × ByteArray)

namespace Folder

/-- Reads the parts of a path from a place: in the folder, or above it. -/
def readParts (files : Folder) (inside : Bool) : List String → Except ReadFault ByteArray
  | [] => .error .isFolder
  | part :: parts =>
    if part = "" || part = "." then readParts files inside parts
    else if part = ".." then readParts files false parts
    else if 255 < part.utf8ByteSize then .error .nameTooLong
    else if !inside then .error .notFound
    else
      match files.lookup part with
      | none => .error .notFound
      | some bytes => if parts.isEmpty then .ok bytes else .error .notFolder

/-- The bytes of the file at a path. -/
def read (files : Folder) (path : String) : Except ReadFault ByteArray :=
  if path = "" then .error .notFound
  else if 4096 ≤ path.utf8ByteSize then .error .nameTooLong
  else readParts files (!path.startsWith "/") (path.splitOn "/")

end Folder

end CommandLine

end Lox
