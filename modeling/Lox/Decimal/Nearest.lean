import Lox.Decimal.Basic

/-!
# The double nearest to a decimal

The magnitudes of the finite doubles are the numbers `m * 2 ^ s` in units of `2 ^ -1074`, with
`m < 2 ^ 53` and, unless `s = 0`, also `2 ^ 52 ≤ m`. The *code* of such a magnitude is
`s * 2 ^ 52 + m`: it is the bit pattern of the double without its sign, codes are ordered as the
magnitudes are, and the code after the last finite one is that of infinity.

`nearestCode num den` is the code of the magnitude nearest to `num / den`, a tie going to the even
significand. Both sides are exact natural numbers, so numerals of any length are read correctly.
-/

namespace Lox

/-- The powers of two. -/
def twoTo (n : Nat) : Nat := Nat.pow 2 n

namespace Magnitude

/-- The number of units of `2 ^ -1074` in one. -/
def unitsPerOne : Nat := twoTo 1074

/-- The code of infinity, one above that of the largest finite magnitude. -/
def infinityCode : Nat := 2047 * twoTo 52

/-- The shift `s` of the magnitude `m * 2 ^ s` with code `c`. -/
def shift (c : Nat) : Nat := c / twoTo 52 - 1

/-- The significand `m` of the magnitude `m * 2 ^ s` with code `c`. -/
def significand (c : Nat) : Nat := c - shift c * twoTo 52

/-- The magnitude with code `c`, in units of `2 ^ -1074`. -/
def units (c : Nat) : Nat := significand c * twoTo (shift c)

/-- The natural number nearest to `num / den`; half way between two of them, the even one. -/
def roundDiv (num den : Nat) : Nat :=
  let q := num / den
  match compare (2 * (num % den)) den with
  | .lt => q
  | .eq => q + q % 2
  | .gt => q + 1

/-- The code of the magnitude nearest to `num / den`, infinity if that is too large for any. A
significand that rounds up to `2 ^ 53` carries into the shift by itself. -/
def nearestCode (num den : Nat) : Nat :=
  let scaled := num * unitsPerOne
  let s := (scaled / den).log2 - 52
  min (s * twoTo 52 + roundDiv scaled (den * twoTo s)) infinityCode

end Magnitude

/-- The code of the magnitude nearest to a decimal. -/
def Decimal.code (d : Decimal) : Nat := Magnitude.nearestCode d.digits (tenTo d.places)

/-- The double nearest to a decimal, ties to even. -/
def Decimal.toFloat (d : Decimal) : Float := Float.ofBits (UInt64.ofNat d.code)

end Lox
