import Lox.Decimal.Nearest
import Lox.Diagnostic
import Lox.Piece

/-!
# The tokens of a source text

Strings, numbers, words and symbols are tokens; blanks and comments are not; an open string and a
stray character are errors. Lines are counted from one. A token carries the line it ends on, an
error the line it starts on, and after the last piece stands the token for the end of the input.
-/

namespace Lox

namespace Piece

/-- The kind of token a piece is, if it is one. A word is a keyword when all of it is reserved. -/
def kind? : Piece → Option Kind
  | string text => some (.string (String.ofList text))
  | number whole fraction => some (.number (Decimal.ofDigits whole fraction).toFloat)
  | word text =>
    match Keyword.ofSpelling? text with
    | some k => some (.keyword k)
    | none => some (.identifier (String.ofList text))
  | symbol s => some (.symbol s)
  | _ => none

/-- The fault of a piece, if it has one. -/
def fault? : Piece → Option LexicalFault
  | openString _ => some .unterminatedString
  | stray _ => some .unexpectedCharacter
  | _ => none

/-- Whether a piece is a comment that is never closed. -/
def isOpenComment : Piece → Bool
  | openComment _ => true
  | _ => false

/-- The line after a piece that starts on the given line. -/
def lineAfter (line : Int32) (p : Piece) : Int32 := line + Int32.ofNat p.newlines

/-- The token of a piece that ends on the given line. -/
def token? (line : Int32) (p : Piece) : Option Token :=
  p.kind?.map fun k => ⟨k, String.ofList p.chars, line⟩

/-- The error of a piece that starts on the given line. -/
def error? (line : Int32) (p : Piece) : Option LexicalError :=
  p.fault?.map fun f => ⟨f, line⟩

end Piece

/-- What reading a source text gives: its tokens up to the end of the input, its errors, and whether
it ends inside a comment. -/
structure Scan where
  tokens : List Token
  errors : List LexicalError
  openComment : Bool

namespace Scan

/-- The tokens and errors of pieces that start on the given line. -/
def ofPieces (line : Int32) : List Piece → Scan
  | [] => ⟨[⟨.eof, "", line⟩], [], false⟩
  | p :: ps =>
    let after := p.lineAfter line
    let s := ofPieces after ps
    ⟨(p.token? after).toList ++ s.tokens, (p.error? line).toList ++ s.errors,
      p.isOpenComment || s.openComment⟩

/-- The line of the last token, which is where the input ends. -/
def endLine (s : Scan) : Int32 := (s.tokens.getLast?.map Token.line).getD 0

end Scan

/-- Reads the tokens of a source text. -/
def scan (source : String) : Scan := Scan.ofPieces 1 (Piece.split source.toList)

end Lox
