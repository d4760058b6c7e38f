import Lox.Number
import Mathlib.Algebra.Ring.Nat
import Mathlib.Tactic.SplitIfs

/-!
# The bits of a finite double

The pattern of a double is a sign bit, eleven bits of exponent and fifty-two bits of mantissa.  The
exponent with all bits set is kept for infinity and for what is not a number; every other pattern is
that of a finite double, and a finite double has only one.

An operation on doubles takes its operand out of the pattern and puts the result into one again.
The proof runs on two facts about patterns: taking a finite double out and putting it back changes
nothing (`pack_unpack_packComponents`), and changing the sign of what was taken out is the same as
changing the sign bit (`neg_unpack_packComponents`).  So a finite double is the one with its code,
or the negation of that (`eq_ofBits_code`), and that holds of both zeros.
-/

namespace Lox

namespace Number

open Float.Model (Format)
open Float.Model.UnpackedFloat

/-! ### Patterns -/

/-- A pattern as a number: the fields one after the other. -/
theorem toNat_packComponents (s : Sign) (e : BitVec 11) (m : BitVec 52) :
    (packComponents .binary64 s e m).toNat =
      s.toBitVec.toNat * 2 ^ 63 + (e.toNat * 2 ^ 52 + m.toNat) := by
  have hm := m.isLt
  have he := e.isLt
  simp only [packComponents, BitVec.toNat_append]
  rw [← Nat.shiftLeft_add_eq_or_of_lt hm, ← Nat.shiftLeft_add_eq_or_of_lt he]
  simp only [Nat.shiftLeft_eq]
  omega

theorem exists_eq_packComponents (b : BitVec 64) :
    ∃ (s : Sign) (e : BitVec 11) (m : BitVec 52), b = packComponents .binary64 s e m := by
  have hb := b.isLt
  refine ⟨if b.toNat < 2 ^ 63 then .positive else .negative, .ofNat 11 (b.toNat / 2 ^ 52),
    .ofNat 52 b.toNat, BitVec.eq_of_toNat_eq ?_⟩
  rw [toNat_packComponents]
  split <;> simp only [Sign.toBitVec, BitVec.toNat_ofNat] <;> omega

/-- An exponent that has not all bits set. -/
theorem toNat_lt_of_ne {e : BitVec 11} (he : e ≠ -1#11) : e.toNat + 1 < 2 ^ 11 := by
  have hlt := e.isLt
  have hne : e.toNat ≠ (-1#11).toNat := fun h => he (BitVec.eq_of_toNat_eq h)
  have hones : (-1#11).toNat = 2047 := rfl
  omega

/-! ### Taking out of a pattern and putting back -/

theorem ofBitVec_unpackSign (s : Sign) (e : BitVec 11) (m : BitVec 52) :
    Sign.ofBitVec (unpackSign (packComponents .binary64 s e m)) = s := by
  have hbit : unpackSign (packComponents .binary64 s e m) =
      BitVec.extractLsb' 63 1 (s.toBitVec ++ e ++ m) := rfl
  rw [hbit, BitVec.extractLsb'_append_eq_of_le (by omega),
    BitVec.extractLsb'_append_eq_of_le (by omega)]
  cases s <;> rfl

/-- What a pattern with these fields stands for: infinity or not a number, zero, a subnormal, or a
normal number. -/
def ofFields (s : Sign) (e : BitVec 11) (m : BitVec 52) : Float.Model.UnpackedFloat :=
  if e = -1#11 then if m = 0#52 then .infinity s else .notANumber
  else if e = 0#11 then
    if h : m = 0#52 then .zero s
    else .finite s m.toNat (-1074) (by simpa [BitVec.toNat_pos, BitVec.pos_iff_ne_zero])
  else .finite s (2 ^ 52 + m.toNat) (e.toNat - 1075) (by omega)

/-- The mantissa of a normal number with its leading one. -/
theorem toNat_one_append (m : BitVec 52) : (1#1 ++ m).toNat = 2 ^ 52 + m.toNat := by
  rw [BitVec.toNat_append, ← Nat.shiftLeft_add_eq_or_of_lt m.isLt, Nat.shiftLeft_eq]
  rfl

theorem finite_congr {s : Sign} {n n' : Nat} {x x' : Int} (hn : n = n') (hx : x = x') {h : 0 < n}
    {h' : 0 < n'} : finite s n x h = finite s n' x' h' := by
  subst hn hx
  rfl

theorem unpack_eq_ofFields (b : BitVec Format.binary64.numBits) : unpack .binary64 b =
    ofFields (Sign.ofBitVec (unpackSign b)) (unpackExponent b) (unpackMantissa b) := by
  generalize hs : Sign.ofBitVec (unpackSign b) = s
  generalize he : unpackExponent b = e
  generalize hm : unpackMantissa b = m
  have hunpack : unpack .binary64 b =
      if e = -1#11 then if m = 0#52 then .infinity s else .notANumber
      else if e = 0#11 then
        if h : m = 0#52 then .zero s
        else .finite s m.toNat (e.toNat - 1075 + 1) (by
          simpa [BitVec.toNat_pos, BitVec.pos_iff_ne_zero])
      else .finite s (1#1 ++ m).toNat (e.toNat - 1075) (by rw [toNat_one_append]; omega) := by
    subst hs he hm
    rfl
  rw [hunpack, ofFields]
  by_cases hones : e = -1#11
  · rw [if_pos hones, if_pos hones]
  rw [if_neg hones, if_neg hones]
  by_cases hzero : e = 0#11
  · rw [if_pos hzero, if_pos hzero]
    by_cases hm0 : m = 0#52
    · rw [dif_pos hm0, dif_pos hm0]
    · rw [dif_neg hm0, dif_neg hm0]
      exact finite_congr rfl (by rw [hzero]; rfl)
  · rw [if_neg hzero, if_neg hzero]
    exact finite_congr (toNat_one_append m) rfl

theorem unpack_packComponents (s : Sign) (e : BitVec 11) (m : BitVec 52) :
    unpack .binary64 (packComponents .binary64 s e m) = ofFields s e m := by
  rw [unpack_eq_ofFields, unpackMantissa_packComponents, unpackExponent_packComponents,
    ofBitVec_unpackSign]

/-- **Negation changes the sign bit** and nothing else. -/
theorem neg_unpack_packComponents (s : Sign) (e : BitVec 11) (m : BitVec 52) :
    (unpack .binary64 (packComponents .binary64 s e m)).neg =
      unpack .binary64 (packComponents .binary64 (-s) e m) := by
  rw [unpack_packComponents, unpack_packComponents, ofFields, ofFields, apply_ite neg, apply_ite neg,
    apply_ite neg, apply_dite neg]
  rfl

theorem pack_finite (s : Sign) {n : Nat} (x : Int) (h : 0 < n) :
    pack .binary64 (.finite s n x h) =
      if 2 ^ 11 ≤ (x + 1023 + 52).toNat + 1 then packedInfinity .binary64 s
      else if n.log2 + 1 = 53 then
        packComponents .binary64 s (.ofNat 11 (x + 1023 + 52).toNat) (.ofNat 52 n)
      else packComponents .binary64 s 0#11 (.ofNat 52 n) := rfl

/-- **The pattern of a finite double is its only one.** -/
theorem pack_unpack_packComponents (s : Sign) {e : BitVec 11} (he : e ≠ -1#11) (m : BitVec 52) :
    pack .binary64 (unpack .binary64 (packComponents .binary64 s e m)) =
      packComponents .binary64 s e m := by
  have hm := m.isLt
  have hlt := toNat_lt_of_ne he
  rw [unpack_packComponents, ofFields, if_neg he]
  by_cases hzero : e = 0#11
  · rw [if_pos hzero]
    by_cases hm0 : m = 0#52
    · rw [dif_pos hm0, hzero, hm0]
      rfl
    · -- A subnormal number has too few bits for a leading one at the place of a normal number.
      have hpos : m.toNat ≠ 0 := fun h => hm0 (BitVec.eq_of_toNat_eq h)
      have hlog : m.toNat.log2 < 52 := (Nat.log2_lt hpos).mpr hm
      rw [dif_neg hm0, pack_finite, if_neg (by decide), if_neg (by omega), BitVec.ofNat_toNat, hzero,
        BitVec.setWidth_eq]
  · -- The leading one of a normal number is not written.
    have hlog : (2 ^ 52 + m.toNat).log2 = 52 := (Nat.log2_eq_iff (by omega)).mpr (by omega)
    have hexponent : ((e.toNat - 1075 : Int) + 1023 + 52).toNat = e.toNat := by omega
    have hmantissa : BitVec.ofNat 52 (2 ^ 52 + m.toNat) = m := by
      apply BitVec.eq_of_toNat_eq
      rw [BitVec.toNat_ofNat, Nat.add_mod_left, Nat.mod_eq_of_lt hm]
    rw [if_neg hzero, pack_finite, hlog, hexponent, hmantissa, if_neg (by omega), if_pos rfl,
      BitVec.ofNat_toNat, BitVec.setWidth_eq]

/-! ### Doubles and their patterns -/

theorem eq_of_toBits_eq {x y : Float} (h : x.toBits.toBitVec = y.toBits.toBitVec) : x = y := by
  obtain ⟨⟨⟨b⟩, hb⟩⟩ := x
  obtain ⟨⟨⟨c⟩, hc⟩⟩ := y
  obtain rfl : b = c := h
  rfl

theorem toBits_ofBits (s : Sign) {e : BitVec 11} (he : e ≠ -1#11) (m : BitVec 52) :
    (Float.ofBits ⟨packComponents .binary64 s e m⟩).toBits.toBitVec =
      packComponents .binary64 s e m :=
  pack_unpack_packComponents s he m

theorem toBits_neg {x : Float} {s : Sign} {e : BitVec 11} {m : BitVec 52} (he : e ≠ -1#11)
    (h : x.toBits.toBitVec = packComponents .binary64 s e m) :
    (-x).toBits.toBitVec = packComponents .binary64 (-s) e m := by
  have hneg : (-x).toBits.toBitVec = pack .binary64 (unpack .binary64 x.toBits.toBitVec).neg := rfl
  rw [hneg, h, neg_unpack_packComponents, pack_unpack_packComponents _ he]

theorem exists_toBits_eq {x : Float} (h : x.isFinite) :
    ∃ (s : Sign) (e : BitVec 11) (m : BitVec 52), e ≠ -1#11 ∧
      x.toBits.toBitVec = packComponents .binary64 s e m := by
  obtain ⟨s, e, m, heq⟩ := exists_eq_packComponents x.toBits.toBitVec
  refine ⟨s, e, m, ?_, heq⟩
  rintro rfl
  have hfinite : (unpack .binary64 x.toBits.toBitVec).isFinite = true := h
  rw [heq, unpack_packComponents, ofFields, if_pos rfl] at hfinite
  split_ifs at hfinite <;> exact Bool.noConfusion hfinite

theorem isNaN_eq_false {x : Float} (h : x.isFinite) : x.isNaN = false := by
  have hfinite : (unpack .binary64 x.toBits.toBitVec).isFinite = true := h
  have hisNaN : x.isNaN = (unpack .binary64 x.toBits.toBitVec).isNaN := rfl
  rw [hisNaN]
  cases hx : unpack .binary64 x.toBits.toBitVec with
  | notANumber =>
    rw [hx] at hfinite
    exact Bool.noConfusion hfinite
  | infinity | zero | finite => rfl

/-! ### Codes -/

/-- The code of a double is its pattern after the sign bit. -/
theorem code_of_toBits_eq {x : Float} {s : Sign} {e : BitVec 11} {m : BitVec 52}
    (h : x.toBits.toBitVec = packComponents .binary64 s e m) :
    code x = e.toNat * 2 ^ 52 + m.toNat ∧ (isNegative x ↔ s = .negative) := by
  have hbits : x.toBits.toNat = s.toBitVec.toNat * 2 ^ 63 + (e.toNat * 2 ^ 52 + m.toNat) := by
    rw [← toNat_packComponents, ← h]
    rfl
  have he := e.isLt
  have hm := m.isLt
  have htwo : twoTo 63 = 2 ^ 63 := rfl
  simp only [code, isNegative, decide_eq_true_eq, hbits, htwo]
  cases s <;> simp [Sign.toBitVec] <;> omega

theorem code_lt_infinityCode {x : Float} (h : x.isFinite) : code x < Magnitude.infinityCode := by
  obtain ⟨s, e, m, he, heq⟩ := exists_toBits_eq h
  have hlt := toNat_lt_of_ne he
  have hm := m.isLt
  have hinfinity : Magnitude.infinityCode = 2047 * 2 ^ 52 := rfl
  rw [(code_of_toBits_eq heq).1, hinfinity]
  omega

/-- **A finite double is the one with its code, or the negation of that.** -/
theorem eq_ofBits_code {x : Float} (h : x.isFinite) :
    x = if isNegative x then -Float.ofBits (UInt64.ofNat (code x))
      else Float.ofBits (UInt64.ofNat (code x)) := by
  obtain ⟨s, e, m, he, heq⟩ := exists_toBits_eq h
  obtain ⟨hcode, hnegative⟩ := code_of_toBits_eq heq
  have hbits : UInt64.ofNat (code x) = ⟨packComponents .binary64 .positive e m⟩ := by
    have he := e.isLt
    have hm := m.isLt
    apply UInt64.toNat_inj.mp
    refine Eq.trans ?_ (toNat_packComponents .positive e m).symm
    rw [UInt64.toNat_ofNat', hcode, Nat.mod_eq_of_lt (by omega)]
    exact (Nat.zero_add _).symm
  have hpositive := toBits_ofBits .positive he m
  apply eq_of_toBits_eq
  rw [hbits, heq]
  split_ifs with hx
  · rw [toBits_neg he hpositive, hnegative.mp hx]
    rfl
  · cases s with
    | negative => exact absurd (hnegative.mpr rfl) hx
    | positive => exact hpositive.symm

end Number

end Lox
