import Lox.Decimal.Shortest
import Lox.Proofs.Lexicon.Units
import Mathlib.Algebra.Ring.Nat

/-!
# Decimals that read back

Two round trips meet in the text of a number.  A decimal is written as a numeral, and reading the
numeral gives the decimal back (`ofChars_toChars`).  And a finite magnitude is given a decimal whose
nearest magnitude it is (`code_shortest`).  The second holds on a grid of few digits because a
neighbour is taken only when it reads back, and off all grids because the decimal with all digits of
the magnitude is the magnitude itself, so that nothing is rounded (`nearestCode_of_exact`).
-/

namespace Lox

open Lexicon (Digits Numeral digits_iff)

namespace Decimal

/-! ### Digits -/

theorem tenTo_pos (n : Nat) : 0 < tenTo n := Nat.pow_pos (by decide)

theorem digits_toDigits (n : Nat) : Digits (Nat.toDigits 10 n) := by
  refine ⟨Nat.toDigits_ne_nil, fun c hc => ?_⟩
  have hdigit := Nat.isDigit_of_mem_toDigits (by decide) (by decide) hc
  simp only [Char.isDigit, Bool.and_eq_true, decide_eq_true_eq] at hdigit
  exact hdigit

theorem digits_padded (w n : Nat) : Digits (padded w n) := by
  obtain ⟨hne, hdigits⟩ := digits_toDigits n
  refine ⟨List.append_ne_nil_of_right_ne_nil _ hne, fun c hc => ?_⟩
  rcases List.mem_append.mp hc with hzero | hdigit
  · rw [List.eq_of_mem_replicate hzero]
    exact Lexicon.isDigit_iff.mp rfl
  · exact hdigits c hdigit

theorem length_padded {w n : Nat} (hw : 0 < w) (h : n < tenTo w) : (padded w n).length = w := by
  have hle : (Nat.toDigits 10 n).length ≤ w := (Nat.length_toDigits_le_iff (by decide) hw).mpr h
  simp only [padded, List.length_append, List.length_replicate]
  omega

@[simp]
theorem ofDigitChars_padded (w n : Nat) : Nat.ofDigitChars 10 (padded w n) 0 = n := by
  rw [padded, Nat.ofDigitChars_append, Nat.ofDigitChars_replicate_zero, Nat.mul_zero,
    Nat.ofDigitChars_ten_toDigits]

/-! ### Decimals and their numerals -/

theorem numeral_toChars (d : Decimal) : Numeral d.toChars := by
  unfold toChars fraction
  split
  · exact .whole (digits_toDigits _)
  · exact .fraction (digits_toDigits _) (digits_padded _ _)

@[simp]
theorem ofDigits_whole_fraction (d : Decimal) : ofDigits d.whole d.fraction = d := by
  obtain ⟨digits, places⟩ := d
  simp only [ofDigits, whole, fraction, mk.injEq]
  split
  · next h =>
    subst h
    exact ⟨by simp [tenTo, Nat.ofDigitChars_ten_toDigits], rfl⟩
  · next h =>
    have hlength := length_padded (Nat.pos_of_ne_zero h) (Nat.mod_lt digits (tenTo_pos places))
    refine ⟨?_, hlength⟩
    rw [Nat.ofDigitChars_append, Nat.ofDigitChars_ten_toDigits,
      Nat.ofDigitChars_eq_ofDigitChars_zero, ofDigitChars_padded, hlength]
    exact Nat.div_add_mod digits (tenTo places)

/-- **Reading undoes writing.** -/
@[simp]
theorem ofChars_toChars (d : Decimal) : ofChars d.toChars = d := by
  have hwhole : ∀ c ∈ d.whole, isDigit c = true := (digits_iff.mp (digits_toDigits _)).2
  have hpoint : isDigit '.' = false := rfl
  have htake : d.toChars.takeWhile isDigit = d.whole := by
    unfold toChars
    split
    · exact List.takeWhile_eq_self_iff.mpr hwhole
    · rw [List.takeWhile_append_of_pos hwhole, List.takeWhile_cons_of_neg (by simp [hpoint]),
        List.append_nil]
  have hdrop : (d.toChars.dropWhile isDigit).drop 1 = d.fraction := by
    unfold toChars
    split
    · next h =>
      rw [List.dropWhile_eq_nil_iff.mpr hwhole, fraction, if_pos h]
      rfl
    · rw [List.dropWhile_append_of_pos hwhole, List.dropWhile_cons_of_neg (by simp [hpoint])]
      rfl
  rw [ofChars, htake, hdrop, ofDigits_whole_fraction]

end Decimal

/-! ### Magnitudes and their codes -/

namespace Magnitude

theorem shift_mul_add_significand (c : Nat) : shift c * twoTo 52 + significand c = c := by
  have htwo : twoTo 52 = 2 ^ 52 := rfl
  simp only [significand, shift, htwo]
  omega

/-- A significand has at most fifty-three bits, and just as many unless the shift is zero. -/
theorem significand_bounds (c : Nat) :
    significand c < 2 ^ 53 ∧ (shift c = 0 ∨ 2 ^ 52 ≤ significand c) := by
  have htwo : twoTo 52 = 2 ^ 52 := rfl
  simp only [significand, shift, htwo]
  omega

/-- The shift of a magnitude is found from its number of bits. -/
theorem log2_units (c : Nat) : (units c).log2 - 52 = shift c := by
  obtain ⟨hlt, hzero | hle⟩ := significand_bounds c
  · have hunits : units c = significand c := by
      rw [units, hzero, twoTo]
      exact Nat.mul_one _
    rw [hunits, hzero, Nat.sub_eq_zero_iff_le]
    by_cases h : significand c = 0
    · rw [h]
      decide
    · exact Nat.le_of_lt_succ ((Nat.log2_lt h).mpr hlt)
  · have hne : significand c ≠ 0 := by omega
    have hpow : 0 < 2 ^ shift c := Nat.pow_pos (by decide)
    have hlog : (significand c * 2 ^ shift c).log2 = 52 + shift c := by
      rw [Nat.log2_eq_iff (Nat.mul_ne_zero hne hpow.ne'), Nat.pow_add, Nat.add_right_comm,
        Nat.pow_add]
      exact ⟨Nat.mul_le_mul_right _ hle, Nat.mul_lt_mul_of_pos_right hlt hpow⟩
    calc (units c).log2 - 52 = 52 + shift c - 52 := by rw [← hlog]; rfl
      _ = shift c := Nat.add_sub_cancel_left _ _

theorem roundDiv_mul {den : Nat} (hden : 0 < den) (m : Nat) : roundDiv (m * den) den = m := by
  simp only [roundDiv, Nat.mul_mod_left, Nat.mul_zero, Nat.mul_div_cancel m hden]
  rw [Nat.compare_eq_lt.mpr hden]

/-- **A ratio that is a magnitude is rounded to it.** -/
theorem nearestCode_of_exact {num den c : Nat} (hden : 0 < den) (hc : c < infinityCode)
    (h : num * unitsPerOne = units c * den) : nearestCode num den = c := by
  have hshift : (units c * den / den).log2 - 52 = shift c := by
    rw [Nat.mul_div_cancel _ hden, log2_units]
  have hround : roundDiv (units c * den) (den * twoTo (shift c)) = significand c := by
    have hassoc : units c * den = significand c * (den * twoTo (shift c)) := by
      rw [units, Nat.mul_assoc, Nat.mul_comm (twoTo _) den]
    rw [hassoc]
    exact roundDiv_mul (Nat.mul_pos hden (Nat.pow_pos (by decide))) _
  simp only [nearestCode, h, hshift, hround, shift_mul_add_significand]
  exact Nat.min_eq_left (Nat.le_of_lt hc)

end Magnitude

/-! ### The decimal of a magnitude -/

namespace Decimal

theorem code_exact {c : Nat} (hc : c < Magnitude.infinityCode) : (exact c).code = c := by
  have hten : ∀ n, tenTo n = Nat.pow 5 n * twoTo n := Nat.mul_pow 5 2
  refine Magnitude.nearestCode_of_exact (tenTo_pos _) hc ?_
  rw [exact, Magnitude.unitsPerOne]
  -- The power of five is never multiplied out.
  generalize 1074 = n
  rw [hten, Nat.mul_assoc]

theorem code_of_onGrid? {c : Nat} {e : Int} {d : Decimal} (h : onGrid? c e = some d) :
    d.code = c := by
  simp only [onGrid?] at h
  split at h
  · next hlow =>
    split at h
    · next hhigh =>
      cases h
      exact hhigh.2
    · cases h
      exact hlow
  · split at h
    · next hhigh =>
      cases h
      exact hhigh
    · cases h

/-- **The decimal of a finite magnitude reads back as it.** -/
theorem code_shortest {c : Nat} (hc : c < Magnitude.infinityCode) : (shortest c).code = c := by
  unfold shortest
  extract_lets point grids
  cases hfind : grids.findSome? (onGrid? c) with
  | none => exact code_exact hc
  | some d =>
    obtain ⟨e, -, he⟩ := List.exists_of_findSome?_eq_some hfind
    exact code_of_onGrid? he

end Decimal

end Lox
