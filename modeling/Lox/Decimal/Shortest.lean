import Lox.Decimal.Nearest

/-!
# The shortest decimal that reads back

Among the decimals whose nearest magnitude is a given one there are some with the fewest digits.
`shortest c` is the one of them nearest to the magnitude with code `c`. It looks at the grids of
numerals with one digit, two digits, and so on up to seventeen, which always suffice; on each grid
only the two neighbours of the magnitude can be the answer, and a neighbour is accepted when it
reads back as `c`.
-/

namespace Lox

namespace Decimal

/-- The exponent `e` of the decimal point: the magnitude `num / den` has its first digit at
`10 ^ (e - 1)`. -/
def pointOf (num den : Nat) : Int :=
  let w := num / den
  if w = 0 then 1 - (Nat.toDigits 10 (den / num)).length else (Nat.toDigits 10 w).length

/-- The decimal `digits / 10 ^ places` without the zeros at the end of its fraction. -/
def trimmed (digits : Nat) : Nat → Decimal
  | 0 => ⟨digits, 0⟩
  | p + 1 => if digits % 10 = 0 then trimmed (digits / 10) p else ⟨digits, p + 1⟩

/-- The point `k` of the grid of step `10 ^ e` as a decimal. -/
def ofGrid (k : Nat) (e : Int) : Decimal :=
  match e with
  | .ofNat n => ⟨k * tenTo n, 0⟩
  | .negSucc n => trimmed k (n + 1)

/-- The last point not above `num / den` on the grid of step `10 ^ e`, and twice what is left over,
compared with one step. -/
def floorGrid (num den : Nat) (e : Int) : Nat × Ordering :=
  let (num, den) := match e with
    | .ofNat n => (num, den * tenTo n)
    | .negSucc n => (num * tenTo (n + 1), den)
  (num / den, compare (2 * (num % den)) den)

/-- The neighbour of the magnitude `c` on the grid of step `10 ^ e` that reads back as `c`. Of two
the nearer one is taken, and the upper one when they are equally near. -/
def onGrid? (c : Nat) (e : Int) : Option Decimal :=
  let (k, half) := floorGrid (Magnitude.units c) Magnitude.unitsPerOne e
  let low := ofGrid k e
  let high := ofGrid (k + 1) e
  if low.code = c then
    if half ≠ .lt ∧ high.code = c then some high else some low
  else if high.code = c then some high
  else none

/-- All digits of the magnitude `c`. -/
def exact (c : Nat) : Decimal := ⟨Magnitude.units c * Nat.pow 5 1074, 1074⟩

/-- The decimal with the fewest digits that reads back as the magnitude with code `c`, and of those
the nearest one. -/
def shortest (c : Nat) : Decimal :=
  let point := pointOf (Magnitude.units c) Magnitude.unitsPerOne
  let grids := (List.range 17).map fun n => point - (n + 1 : Nat)
  (grids.findSome? (onGrid? c)).getD (exact c)

end Decimal

end Lox
