import Lox.Decimal.Shortest

/-!
# The text of a number

The numbers of the language are doubles. A finite one is written with the fewest digits that read
back as the same double, always positionally; the sign of zero is kept. The other three texts are
`inf`, `-inf` and `NaN`, the last one whatever the sign and payload of the pattern.
-/

namespace Lox

namespace Number

/-- Whether the sign bit is set. -/
def isNegative (x : Float) : Bool := twoTo 63 ≤ x.toBits.toNat

/-- The bit pattern without its sign. -/
def code (x : Float) : Nat := x.toBits.toNat % twoTo 63

/-- The text of a magnitude that is a number. -/
def magnitudeText (c : Nat) : String :=
  if c = Magnitude.infinityCode then "inf" else (Decimal.shortest c).text

/-- The text of a number. -/
def text (x : Float) : String :=
  if x.isNaN then "NaN"
  else if isNegative x then "-" ++ magnitudeText (code x)
  else magnitudeText (code x)

/-- The number with the given text: digits with at most one point among them, perhaps after a minus
sign, or `inf`, `-inf`, `NaN`. -/
def ofChars : List Char → Float
  | '-' :: cs => -ofMagnitude cs
  | cs => ofMagnitude cs
where
  /-- A text without a sign. -/
  ofMagnitude (cs : List Char) : Float :=
    if cs = ['N', 'a', 'N'] then Float.ofBits 0x7ff8000000000000
    else if cs = ['i', 'n', 'f'] then Float.ofBits (UInt64.ofNat Magnitude.infinityCode)
    else (Decimal.ofChars cs).toFloat

end Number

end Lox
