import Lox.Diagnostic
import Lox.Number

/-!
# The lexical grammar

The units that a source text consists of, said without a way to find them.

    blank          one space, carriage return, tab or line feed
    line comment   `//` and what follows it, up to the next line feed or the end of the text
    block comment  `/*` and what follows it, up to and with the first `*/` after it; without one,
                   up to the end of the text
    string         `"` and what follows it, up to and with the next `"`; without one, up to the end
                   of the text, and that is an error
    number         the longest  digits ( "." digits )?
    word           the longest  [A-Za-z_] [A-Za-z0-9_]*
    operator       the longest spelling of a symbol, unless a comment starts here
    stray          a single character where none of the others starts, and that is an error

A *segmentation* of a text cuts it into units from left to right, each together with what stands
before it in the text.  From that follow the line that a token ends on and the line that an error
starts on.
-/

namespace Lox

namespace Lexicon

/-! ### Classes of texts -/

/-- The letters `A` to `Z` and `a` to `z`, and `_`. -/
def Letter (c : Char) : Prop := ('A' ≤ c ∧ c ≤ 'Z') ∨ ('a' ≤ c ∧ c ≤ 'z') ∨ c = '_'

def Digit (c : Char) : Prop := '0' ≤ c ∧ c ≤ '9'

/-- One digit or more. -/
def Digits (cs : List Char) : Prop := cs ≠ [] ∧ ∀ c ∈ cs, Digit c

/-- Digits, perhaps with a point and digits after them. -/
inductive Numeral : List Char → Prop
  | whole {ds : List Char} (hds : Digits ds) : Numeral ds
  | fraction {ds es : List Char} (hds : Digits ds) (hes : Digits es) : Numeral (ds ++ '.' :: es)

/-- A letter and any number of letters and digits. -/
inductive Word : List Char → Prop
  | mk {c : Char} {cs : List Char} (hc : Letter c) (hcs : ∀ d ∈ cs, Letter d ∨ Digit d) :
      Word (c :: cs)

/-- The spelling of a symbol. -/
def Spelling (cs : List Char) : Prop := ∃ s : Symbol, s.spelling = cs

/-- Of the texts of a class at the front of `text ++ rest`, the text `text` is the longest. -/
structure Longest (P : List Char → Prop) (text rest : List Char) : Prop where
  holds : P text
  length_le : ∀ t, t <+: text ++ rest → P t → t.length ≤ text.length

/-! ### Units -/

/-- What a unit gives: nothing, a token, or an error with its message. -/
inductive Yield where
  | nothing
  | token (kind : Kind)
  | error (message : String)

/-- `Regular text rest y`: before `rest`, the characters `text` are a unit other than a stray
character, and give `y`. -/
inductive Regular : List Char → List Char → Yield → Prop
  | blank {c : Char} {rest : List Char} (h : c ∈ [' ', '\r', '\t', '\n']) :
      Regular [c] rest .nothing
  | lineComment {text rest : List Char} (h : '\n' ∉ text) (hrest : ∀ c ∈ rest.head?, c = '\n') :
      Regular ('/' :: '/' :: text) rest .nothing
  /-- The closing `*/` is the first one: there is none that ends before it does. -/
  | blockComment {text rest : List Char} (h : ¬['*', '/'] <:+: text ++ ['*']) :
      Regular ('/' :: '*' :: (text ++ ['*', '/'])) rest .nothing
  | openComment {text : List Char} (h : ¬['*', '/'] <:+: text) :
      Regular ('/' :: '*' :: text) [] .nothing
  | string {text rest : List Char} (h : '"' ∉ text) :
      Regular ('"' :: (text ++ ['"'])) rest (.token (.string (String.ofList text)))
  | openString {text : List Char} (h : '"' ∉ text) :
      Regular ('"' :: text) [] (.error "Unterminated string.")
  | number {text rest : List Char} (h : Longest Numeral text rest) :
      Regular text rest (.token (.number (Number.ofChars text)))
  | keyword {k : Keyword} {rest : List Char} (h : Longest Word k.spelling rest) :
      Regular k.spelling rest (.token (.keyword k))
  | identifier {text rest : List Char} (h : Longest Word text rest)
      (hk : ∀ k : Keyword, k.spelling ≠ text) :
      Regular text rest (.token (.identifier (String.ofList text)))
  | operator {s : Symbol} {rest : List Char} (h : Longest Spelling s.spelling rest)
      (hline : ¬['/', '/'] <+: s.spelling ++ rest) (hblock : ¬['/', '*'] <+: s.spelling ++ rest) :
      Regular s.spelling rest (.token (.symbol s))

/-- `IsUnit text rest y`: before `rest`, the characters `text` are a unit, and give `y`. -/
inductive IsUnit : List Char → List Char → Yield → Prop
  | regular {text rest : List Char} {y : Yield} (h : Regular text rest y) : IsUnit text rest y
  | stray {c : Char} {rest : List Char} (h : ∀ t r y, t ++ r = c :: rest → ¬Regular t r y) :
      IsUnit [c] rest (.error "Unexpected character.")

/-! ### Segmentations -/

/-- A unit in its place: what stands before it in the text, its characters, and what it gives. -/
structure Placed where
  before : List Char
  text : List Char
  gives : Yield

/-- The units of `rest`, which stands after `before`, from left to right. -/
inductive Segmentation : List Char → List Char → List Placed → Prop
  | done (before : List Char) : Segmentation before [] []
  | unit {before text rest : List Char} {y : Yield} {us : List Placed} (h : IsUnit text rest y)
      (hus : Segmentation (before ++ text) rest us) :
      Segmentation before (text ++ rest) (⟨before, text, y⟩ :: us)

/-- The line that stands after the given characters. -/
def lineAfter (cs : List Char) : Int32 := 1 + Int32.ofNat (cs.count '\n')

namespace Placed

/-- The token of a unit, on the line that the unit ends on. -/
def token? (u : Placed) : Option Token :=
  match u.gives with
  | .token kind => some ⟨kind, String.ofList u.text, lineAfter (u.before ++ u.text)⟩
  | _ => none

/-- The error of a unit: the line that the unit starts on, and the message. -/
def error? (u : Placed) : Option (Int32 × String) :=
  match u.gives with
  | .error message => some (lineAfter u.before, message)
  | _ => none

end Placed

end Lexicon

end Lox
