/-!
# Decimal numerals

A decimal is a natural number of digits together with a point that stands a given number of places
from the right: `digits / 10 ^ places`. Its text is positional, with no exponent, no leading `+` and
no point when there are no places: `1200`, `0.05`, `12.5`.
-/

namespace Lox

/-- The powers of ten. -/
def tenTo (n : Nat) : Nat := Nat.pow 10 n

/-- The nonnegative decimal `digits / 10 ^ places`. -/
structure Decimal where
  digits : Nat
  places : Nat
deriving DecidableEq

namespace Decimal

/-- Whether a character is one of the ten digits `0` to `9`. -/
def isDigit (c : Char) : Bool := '0' ≤ c && c ≤ '9'

/-- The decimal written as the digits `whole`, then, after a point, the digits `fraction`. -/
def ofDigits (whole fraction : List Char) : Decimal where
  digits := Nat.ofDigitChars 10 (whole ++ fraction) 0
  places := fraction.length

/-- The decimal written as `cs`, digits with at most one point among them. -/
def ofChars (cs : List Char) : Decimal :=
  ofDigits (cs.takeWhile isDigit) ((cs.dropWhile isDigit).drop 1)

/-- The digits of `n`, with zeros before them up to the width `w`. -/
def padded (w n : Nat) : List Char :=
  let ds := Nat.toDigits 10 n
  List.replicate (w - ds.length) '0' ++ ds

/-- The digits before the point. -/
def whole (d : Decimal) : List Char := Nat.toDigits 10 (d.digits / tenTo d.places)

/-- The digits after the point. -/
def fraction (d : Decimal) : List Char :=
  if d.places = 0 then [] else padded d.places (d.digits % tenTo d.places)

/-- The characters of a decimal: the point stands only before digits. -/
def toChars (d : Decimal) : List Char :=
  if d.places = 0 then d.whole else d.whole ++ '.' :: d.fraction

/-- The text of a decimal. -/
def text (d : Decimal) : String := String.ofList d.toChars

end Decimal

end Lox
