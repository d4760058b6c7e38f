import Lox.Decimal.Basic
import Lox.Token

/-!
# The pieces of a source text

Read from the left, a source text falls into pieces: blanks, comments, strings, numbers, words,
symbols, and characters that belong to none of these. Every piece is the longest of its class that
starts where it starts, except that a comment or a string ends where it is first closed. The
characters of the pieces of a text, one piece after the other, are the text: nothing is lost.

* A comment opened by two slashes ends before the next line feed.
* A comment opened by a slash and a star ends after the first star and slash that follow, or else
  with the text.
* A string ends after the next quote. Without one it takes the rest of the text.
* A number is digits, and after them a point and digits if the point has a digit after it.
-/

namespace Lox

/-- The symbol with the given spelling. -/
def Symbol.ofSpelling? (cs : List Char) : Option Symbol :=
  Symbol.all.find? fun s => s.spelling = cs

/-- The longest symbol at the front of a text, and the text after it. -/
def Symbol.split? : List Char → Option (Symbol × List Char)
  | c :: d :: rest =>
    match Symbol.ofSpelling? [c, d] with
    | some s => some (s, rest)
    | none => (Symbol.ofSpelling? [c]).map fun s => (s, d :: rest)
  | [c] => (Symbol.ofSpelling? [c]).map fun s => (s, [])
  | [] => none

/-- A piece of a source text, with the part of its characters that its class leaves open. -/
inductive Piece where
  /-- One blank character. -/
  | blank (c : Char)
  /-- What follows two slashes on a line. -/
  | lineComment (text : List Char)
  /-- What follows a slash and a star, the closing star and slash left out. -/
  | blockComment (text : List Char)
  /-- What follows a slash and a star that are never closed. -/
  | openComment (text : List Char)
  /-- What stands between two quotes. -/
  | string (text : List Char)
  /-- What follows a quote that is never closed. -/
  | openString (text : List Char)
  /-- The digits before and after the point; there is no point when none follow it. -/
  | number (whole fraction : List Char)
  /-- A keyword or an identifier. -/
  | word (text : List Char)
  | symbol (s : Symbol)
  /-- A character that starts no other piece. -/
  | stray (c : Char)
deriving DecidableEq

namespace Piece

/-! ### Classes of characters -/

/-- Blanks: space, carriage return, tab and line feed. -/
def isBlank (c : Char) : Bool := c = ' ' || c = '\r' || c = '\t' || c = '\n'

/-- The characters a word starts with: the letters `A` to `Z` and `a` to `z`, and `_`. -/
def isWordStart (c : Char) : Bool := ('a' ≤ c && c ≤ 'z') || ('A' ≤ c && c ≤ 'Z') || c = '_'

/-- The characters a word goes on with. -/
def isWordChar (c : Char) : Bool := isWordStart c || Decimal.isDigit c

/-! ### One piece -/

/-- The characters of a piece. -/
def chars : Piece → List Char
  | blank c => [c]
  | lineComment text => '/' :: '/' :: text
  | blockComment text => '/' :: '*' :: text ++ ['*', '/']
  | openComment text => '/' :: '*' :: text
  | string text => '"' :: text ++ ['"']
  | openString text => '"' :: text
  | number whole [] => whole
  | number whole fraction => whole ++ '.' :: fraction
  | word text => text
  | symbol s => s.spelling
  | stray c => [c]

/-- Cuts a text after the first star and slash: what stands before them, and what follows. -/
def closeComment? : List Char → Option (List Char × List Char)
  | '*' :: '/' :: rest => some ([], rest)
  | c :: rest => (closeComment? rest).map fun (text, rest) => (c :: text, rest)
  | [] => none

/-- The comment after a slash and a star. -/
def comment (cs : List Char) : Piece × List Char :=
  match closeComment? cs with
  | some (text, rest) => (blockComment text, rest)
  | none => (openComment cs, [])

/-- The string after a quote. -/
def quoted (cs : List Char) : Piece × List Char :=
  match cs.dropWhile (· ≠ '"') with
  | _ :: rest => (string (cs.takeWhile (· ≠ '"')), rest)
  | [] => (openString cs, [])

/-- The number with the digits `whole`, before the text `cs`. -/
def numeral (whole cs : List Char) : Piece × List Char :=
  match cs with
  | '.' :: rest =>
    match rest.takeWhile Decimal.isDigit with
    | [] => (number whole [], cs)
    | fraction => (number whole fraction, rest.dropWhile Decimal.isDigit)
  | _ => (number whole [], cs)

/-- The symbol at the front of `c :: cs`, if there is one. -/
def symbolOrStray (c : Char) (cs : List Char) : Piece × List Char :=
  match Symbol.split? (c :: cs) with
  | some (s, rest) => (symbol s, rest)
  | none => (stray c, cs)

/-- The first piece of the text `c :: cs`, and the text after it. -/
def next (c : Char) (cs : List Char) : Piece × List Char :=
  if isBlank c then (blank c, cs)
  else if c = '"' then quoted cs
  else if Decimal.isDigit c then
    numeral (c :: cs.takeWhile Decimal.isDigit) (cs.dropWhile Decimal.isDigit)
  else if isWordStart c then (word (c :: cs.takeWhile isWordChar), cs.dropWhile isWordChar)
  else
    match c, cs with
    | '/', '/' :: rest => (lineComment (rest.takeWhile (· ≠ '\n')), rest.dropWhile (· ≠ '\n'))
    | '/', '*' :: rest => comment rest
    | c, cs => symbolOrStray c cs

/-! ### The text after a piece is shorter -/

theorem length_closeComment?_le {cs text rest : List Char}
    (h : closeComment? cs = some (text, rest)) : rest.length ≤ cs.length := by
  fun_induction closeComment? cs generalizing text with
  | case1 => simp_all; omega
  | case2 c cs _ ih =>
    obtain ⟨⟨t, r⟩, hr, heq⟩ := Option.map_eq_some_iff.1 h
    cases heq
    exact Nat.le_succ_of_le (ih hr)
  | case3 => cases h

theorem length_dropWhile_le (p : Char → Bool) (cs : List Char) :
    (cs.dropWhile p).length ≤ cs.length :=
  (List.dropWhile_sublist p).length_le

theorem length_comment_le (cs : List Char) : (comment cs).2.length ≤ cs.length := by
  unfold comment
  split
  · exact length_closeComment?_le ‹_›
  · simp

theorem length_quoted_le (cs : List Char) : (quoted cs).2.length ≤ cs.length := by
  have h := length_dropWhile_le (· ≠ '"') cs
  unfold quoted
  split <;> simp_all
  omega

theorem length_numeral_le (whole cs : List Char) : (numeral whole cs).2.length ≤ cs.length := by
  unfold numeral
  split
  · split
    · simp
    · exact Nat.le_succ_of_le (length_dropWhile_le _ _)
  · simp

theorem length_symbolOrStray_le (c : Char) (cs : List Char) :
    (symbolOrStray c cs).2.length ≤ cs.length := by
  unfold symbolOrStray
  split
  · next s rest h =>
    cases cs with
    | nil =>
      obtain ⟨_, _, heq⟩ := Option.map_eq_some_iff.1 h
      cases heq
      simp
    | cons d cs =>
      simp only [Symbol.split?] at h
      split at h
      · cases h; simp
      · obtain ⟨_, _, heq⟩ := Option.map_eq_some_iff.1 h
        cases heq
        simp
  · simp

/-- **A piece takes at least one character.** -/
theorem length_next_le (c : Char) (cs : List Char) : (next c cs).2.length ≤ cs.length := by
  unfold next
  split
  · simp
  split
  · exact length_quoted_le cs
  split
  · exact Nat.le_trans (length_numeral_le _ _) (length_dropWhile_le _ _)
  split
  · exact length_dropWhile_le _ _
  split
  · exact Nat.le_succ_of_le (length_dropWhile_le _ _)
  · exact Nat.le_succ_of_le (length_comment_le _)
  · exact length_symbolOrStray_le _ _

/-! ### All pieces -/

/-- The pieces of a text, from left to right. -/
def split : List Char → List Piece
  | [] => []
  | c :: cs =>
    let r := next c cs
    r.1 :: split r.2
termination_by cs => cs.length
decreasing_by exact Nat.lt_succ_of_le (length_next_le c cs)

/-- The number of line feeds in a piece. -/
def newlines (p : Piece) : Nat := p.chars.count '\n'

end Piece

end Lox
