import Mathlib
import Calculator.Numeral.Binary

/-! Doubles and their patterns. Main statements: a double is made up of its sign and its magnitude,
and the finite doubles are those of a magnitude below infinity. -/

namespace Calculator.Numeral

open Float.Model (UnpackedFloat)
open Float.Model.UnpackedFloat

attribute [local instance] natPow

/-! ### The parts of a pattern -/

section

variable (sign : UnpackedFloat.Sign) (exponent : BitVec 11) (mantissa : BitVec 52)
  (bits : BitVec 64)

theorem toNat_packComponents :
    (packComponents .binary64 sign exponent mantissa).toNat =
      (sign.toBitVec.toNat * 2 ^ (11 : Nat) + exponent.toNat) * 2 ^ (52 : Nat) +
        mantissa.toNat := by
  rw [packComponents, BitVec.toNat_append, BitVec.toNat_append,
    ← Nat.shiftLeft_add_eq_or_of_lt mantissa.isLt, ← Nat.shiftLeft_add_eq_or_of_lt exponent.isLt,
    Nat.shiftLeft_eq, Nat.shiftLeft_eq]

theorem toNat_unpackExponent :
    (@unpackExponent .binary64 bits).toNat = bits.toNat / 2 ^ (52 : Nat) % 2 ^ (11 : Nat) := by
  simp [unpackExponent, Nat.shiftRight_eq_div_pow]

theorem isFinite_unpack :
    (unpack .binary64 bits).isFinite ↔ bits.toNat % 2 ^ (63 : Nat) < infinity := by
  have hlt := bits.isLt
  have hinfinity : infinity = 2047 * 2 ^ (52 : Nat) := rfl
  have hmax : @unpackExponent .binary64 bits = -1#11 ↔
      bits.toNat / 2 ^ (52 : Nat) % 2 ^ (11 : Nat) = 2047 := by
    rw [← toNat_unpackExponent, ← BitVec.toNat_inj]
    rfl
  simp only [unpack, hmax]
  split_ifs <;> simp only [UnpackedFloat.isFinite, Bool.false_eq_true, true_iff, false_iff] <;>
    omega

end

/-! ### Sign and magnitude -/

theorem isFinite_iff (x : Float) : x.isFinite ↔ magnitude x < infinity := isFinite_unpack _

theorem isNaN_eq_false_of_isFinite {x : Float} (h : x.isFinite) : x.isNaN = false := by
  rw [Float.isNaN_eq_decide_eq_nan, decide_eq_false_iff_not]
  rintro rfl
  revert h
  decide

/-- A double is made up of its sign and its magnitude. -/
theorem ofMagnitude_magnitude (x : Float) : ofMagnitude (isNegative x) (magnitude x) = x := by
  have hbits : (if isNegative x then 2 ^ (63 : Nat) + magnitude x else magnitude x) =
      x.toBits.toNat := by
    have := x.toBits.toNat_lt
    simp only [isNegative, magnitude, decide_eq_true_eq]
    split_ifs <;> omega
  rw [ofMagnitude, hbits, UInt64.ofNat_toNat, Float.ofBits_toBits]

end Calculator.Numeral
