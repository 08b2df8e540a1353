import Calculator.Proofs.Numeral.Nearest
import Calculator.Proofs.Numeral.Pattern

/-! How arithmetic on doubles rounds. Main statement: a quotient of natural numbers, scaled by a
power of two and rounded as the operations do it, has the pattern nearest to it. -/

namespace Calculator.Numeral

open Float.Model (UnpackedFloat totalExponent)
open Float.Model.UnpackedFloat

attribute [local instance] natPow

/-! ### Binary digits -/

theorem log2_div_two_pow (n k : Nat) : (n / 2 ^ k).log2 = n.log2 - k := by
  rcases Nat.lt_or_ge n (2 ^ k) with hlt | hge
  · rw [Nat.div_eq_of_lt hlt, Nat.log2_zero]
    rcases Nat.eq_zero_or_pos n with rfl | hpos
    · rw [Nat.log2_zero, Nat.zero_sub]
    · exact (Nat.sub_eq_zero_of_le (Nat.le_of_lt ((Nat.log2_lt (Nat.ne_of_gt hpos)).2 hlt))).symm
  · have hk : 0 < 2 ^ k := Nat.two_pow_pos k
    have hn : n ≠ 0 := Nat.ne_of_gt (Nat.lt_of_lt_of_le hk hge)
    have hle : k ≤ n.log2 := (Nat.le_log2 hn).2 hge
    rw [Nat.log2_eq_iff (Nat.ne_of_gt (Nat.div_pos hge hk)), Nat.le_div_iff_mul_le hk,
      Nat.div_lt_iff_lt_mul hk, ← Nat.pow_add, ← Nat.pow_add,
      show n.log2 - k + k = n.log2 by omega, show n.log2 - k + 1 + k = n.log2 + 1 by omega]
    exact ⟨Nat.log2_self_le hn, Nat.lt_log2_self⟩

theorem log2_mul_two_pow_div {a b : Nat} (hb : 0 < b) (h : b ≤ a) (k : Nat) :
    (a * 2 ^ k / b).log2 = (a / b).log2 + k := by
  have hquot : a / b ≠ 0 := Nat.ne_of_gt (Nat.div_pos h hb)
  have hlow : 2 ^ (a / b).log2 * b ≤ a :=
    (Nat.le_div_iff_mul_le hb).1 (Nat.log2_self_le hquot)
  have hhigh : a < 2 ^ ((a / b).log2 + 1) * b := (Nat.div_lt_iff_lt_mul hb).1 Nat.lt_log2_self
  have hk : 0 < 2 ^ k := Nat.two_pow_pos k
  have hne : a * 2 ^ k / b ≠ 0 :=
    Nat.ne_of_gt (Nat.div_pos (Nat.le_trans h (Nat.le_mul_of_pos_right a hk)) hb)
  rw [Nat.log2_eq_iff hne, Nat.le_div_iff_mul_le hb, Nat.div_lt_iff_lt_mul hb]
  constructor
  · rw [Nat.pow_add, Nat.mul_right_comm]
    exact Nat.mul_le_mul_right _ hlow
  · rw [Nat.add_right_comm, Nat.pow_add, Nat.mul_right_comm]
    exact Nat.mul_lt_mul_of_pos_right hhigh hk

/-! ### Digits and what is left after them -/

/-- The whole part of `num / den`, whether at least a half is left, and whether what is left is
neither nothing nor a half. -/
def extended (num den : Nat) : ExtendedMantissa where
  mantissa := num / den
  roundBit := den ≤ 2 * (num % den)
  stickyBit := 2 * (num % den) ≠ 0 && 2 * (num % den) ≠ den

theorem roundedMantissa_extended (num : Nat) {den : Nat} (h : 0 < den) :
    (extended num den).roundedMantissa = roundTiesEven num den := by
  have hmod := Nat.mod_lt num h
  rcases Nat.lt_trichotomy (2 * (num % den)) den with hlt | heq | hgt
  · by_cases hzero : num % den = 0
    · simp [extended, roundTiesEven, hzero, h, Nat.not_le.2 h, ExtendedMantissa.roundedMantissa,
        ExtendedMantissa.accuracy, Accuracy.roundToNearestEven]
    · simp [extended, roundTiesEven, hzero, hlt, Nat.not_le.2 hlt, Nat.ne_of_lt hlt,
        ExtendedMantissa.roundedMantissa, ExtendedMantissa.accuracy, Accuracy.roundToNearestEven]
  · simp [extended, roundTiesEven, heq, ExtendedMantissa.roundedMantissa,
      ExtendedMantissa.accuracy, Accuracy.roundToNearestEven]
  · have hzero : num % den ≠ 0 := by omega
    simp [extended, roundTiesEven, hzero, Nat.le_of_lt hgt, Nat.not_lt.2 (Nat.le_of_lt hgt), hgt,
      Nat.ne_of_gt hgt, ExtendedMantissa.roundedMantissa, ExtendedMantissa.accuracy,
      Accuracy.roundToNearestEven]

theorem shiftRightOne_extended (num : Nat) {den : Nat} (h : 0 < den) :
    (extended num den).shiftRightOne = extended num (den * 2) := by
  have hmod := Nat.mod_lt num h
  have hrest : num % (den * 2) = num % den + den * (num / den % 2) := Nat.mod_mul
  have hbit := Nat.mod_two_eq_zero_or_one (num / den)
  rw [ExtendedMantissa.shiftRightOne, extended, extended, Nat.div_div_eq_div_mul, hrest]
  congr 1
  · rcases hbit with hbit | hbit <;> simp [hbit] <;> omega
  · rcases hbit with hbit | hbit <;> simp [hbit] <;> grind

theorem shiftRight_extended (num : Nat) {den : Nat} (h : 0 < den) (k : Nat) :
    extended num den >>> k = extended num (den * 2 ^ k) := by
  change Nat.repeat ExtendedMantissa.shiftRightOne k (extended num den) = _
  induction k with
  | zero => rw [Nat.pow_zero, Nat.mul_one, Nat.repeat]
  | succ k ih =>
    rw [Nat.repeat, ih, shiftRightOne_extended num (Nat.mul_pos h (Nat.two_pow_pos k)),
      Nat.mul_assoc, Nat.pow_succ]

theorem ofMantissaAndAccuracy_exact (m : Nat) :
    ExtendedMantissa.ofMantissaAndAccuracy m .exact = extended m 1 := by
  simp [ExtendedMantissa.ofMantissaAndAccuracy, extended, Nat.mod_one]

/-- The digits of a quotient, as division gives them. -/
theorem ofMantissaAndAccuracy_fraction (num : Nat) {den : Nat} (h : 0 < den) :
    ExtendedMantissa.ofMantissaAndAccuracy (num / den) (accuracyOfFraction (num % den) den) =
      extended num den := by
  have hmod := Nat.mod_lt num h
  by_cases hzero : num % den = 0
  · simp [accuracyOfFraction, ExtendedMantissa.ofMantissaAndAccuracy, extended, hzero,
      Nat.not_le.2 h]
  · rw [accuracyOfFraction, if_neg hzero]
    rcases Nat.lt_trichotomy (2 * (num % den)) den with hlt | heq | hgt
    · rw [Nat.compare_eq_lt.2 hlt]
      simp [ExtendedMantissa.ofMantissaAndAccuracy, extended, hzero, Nat.not_le.2 hlt,
        Nat.ne_of_lt hlt]
    · rw [Nat.compare_eq_eq.2 heq]
      simp [ExtendedMantissa.ofMantissaAndAccuracy, extended, heq]
    · rw [Nat.compare_eq_gt.2 hgt]
      simp [ExtendedMantissa.ofMantissaAndAccuracy, extended, hzero, Nat.le_of_lt hgt,
        Nat.ne_of_gt hgt]

/-! ### Patterns of what is rounded -/

/-- A mantissa of 53 digits, or of fewer at the finest scale, gives a pattern, and if the scale is
too large that of infinity. -/
theorem toNat_pack_finite (s : UnpackedFloat.Sign) {m scale : Nat} {e : Int} (hm : 0 < m)
    (hlt : m < 2 ^ (53 : Nat)) (hform : 2 ^ (52 : Nat) ≤ m ∨ scale = 0) (he : e = scale - 1074) :
    (pack .binary64 (.finite s m e hm)).toNat =
      s.toBitVec.toNat * 2 ^ (63 : Nat) + min (scale * 2 ^ (52 : Nat) + m) infinity := by
  have hinfinity : infinity = 2047 * 2 ^ (52 : Nat) := rfl
  have hbiased : (e + (Float.Model.Format.binary64.exponentBias : Int) +
      (Float.Model.Format.binary64.mantissaBitsWithoutImplicit : Int)).toNat = scale + 1 := by
    change (e + 1023 + 52).toNat = _
    omega
  unfold pack
  dsimp only
  rw [hbiased]
  split_ifs with hlarge hdigits
  · change 2048 ≤ scale + 1 + 1 at hlarge
    rw [packedInfinity, toNat_packComponents]
    change (_ * 2 ^ (11 : Nat) + 2047) * 2 ^ (52 : Nat) + 0 = _
    omega
  · change ¬2048 ≤ scale + 1 + 1 at hlarge
    change m.log2 + 1 = 53 at hdigits
    have hge : 2 ^ (52 : Nat) ≤ m := (Nat.le_log2 (Nat.ne_of_gt hm)).1 (by omega)
    rw [toNat_packComponents]
    change (_ * 2 ^ (11 : Nat) + (scale + 1) % 2 ^ (11 : Nat)) * 2 ^ (52 : Nat) +
      m % 2 ^ (52 : Nat) = _
    omega
  · change ¬m.log2 + 1 = 53 at hdigits
    have hlog : m.log2 < 52 := by
      have := (Nat.log2_lt (Nat.ne_of_gt hm)).2 hlt
      omega
    have hsmall : m < 2 ^ (52 : Nat) := (Nat.log2_lt (Nat.ne_of_gt hm)).1 hlog
    rw [toNat_packComponents]
    change (_ * 2 ^ (11 : Nat) + 0) * 2 ^ (52 : Nat) + m % 2 ^ (52 : Nat) = _
    omega

theorem toNat_pack_mantissa (s : UnpackedFloat.Sign) {m scale : Nat} {e : Int}
    (hlt : m < 2 ^ (53 : Nat)) (hform : 2 ^ (52 : Nat) ≤ m ∨ scale = 0) (he : e = scale - 1074) :
    (pack .binary64 (if h : m = 0 then .zero s else .finite s m e (Nat.pos_of_ne_zero h))).toNat =
      s.toBitVec.toNat * 2 ^ (63 : Nat) + min (scale * 2 ^ (52 : Nat) + m) infinity := by
  split_ifs with hzero
  · change (packComponents _ s 0 0).toNat = _
    rw [toNat_packComponents, hzero, hform.resolve_left (by omega)]
    change (_ * 2 ^ (11 : Nat) + 0) * 2 ^ (52 : Nat) + 0 = _
    omega
  · exact toNat_pack_finite s _ hlt hform he

section

variable {a b m : Nat} {accuracy : Accuracy} {e : Int} {scale shift : Nat}

theorem shiftToTargetExponent_eq (hb : 0 < b)
    (hdigits : ExtendedMantissa.ofMantissaAndAccuracy m accuracy = extended a b)
    (hscale : (scale : Int) - 1074 = max (m.log2 + e - 52) (-1074))
    (hshift : e + shift = scale - 1074) :
    shiftToTargetExponent .binary64 m e accuracy =
      (extended a (b * 2 ^ shift), (scale : Int) - 1074) := by
  have htarget : Float.Model.Format.binary64.targetExponent (totalExponent m e) = scale - 1074 := by
    change max ((m.log2 : Int) + 1 + e - 53) (-1074) = _
    omega
  rw [shiftToTargetExponent, htarget, shiftToExponent, hdigits,
    show ((scale : Int) - 1074 - e).toNat = shift by omega, shiftRight_extended a hb, hshift]

/-- What is rounded to fewer digits than a double has needs no other scale. -/
theorem shiftToTargetExponent_of_lt (h : m < 2 ^ (53 : Nat)) :
    shiftToTargetExponent .binary64 m ((scale : Int) - 1074) .exact =
      (extended m 1, (scale : Int) - 1074) := by
  have hlog : m.log2 < 53 := by
    rcases Nat.eq_zero_or_pos m with rfl | hpos
    · decide
    · exact (Nat.log2_lt (Nat.ne_of_gt hpos)).2 h
  have htarget : (Float.Model.Format.binary64.targetExponent (totalExponent m (scale - 1074)) -
      ((scale : Int) - 1074)).toNat = 0 := by
    change (max ((m.log2 : Int) + 1 + (scale - 1074) - 53) (-1074) - _).toNat = 0
    omega
  rw [shiftToTargetExponent, shiftToExponent, htarget, ofMantissaAndAccuracy_exact,
    shiftRight_extended m Nat.one_pos, Nat.pow_zero, Int.natCast_zero, Int.add_zero]

/-- Rounding up to a power of two takes the next scale. -/
theorem shiftToTargetExponent_carry :
    shiftToTargetExponent .binary64 (2 ^ (53 : Nat)) ((scale : Int) - 1074) .exact =
      (extended (2 ^ (53 : Nat)) 2, (scale : Int) + 1 - 1074) := by
  have htarget : (Float.Model.Format.binary64.targetExponent
      (totalExponent (2 ^ (53 : Nat)) (scale - 1074)) - ((scale : Int) - 1074)).toNat = 1 := by
    rw [totalExponent, Nat.log2_two_pow]
    change (max (53 + 1 + ((scale : Int) - 1074) - 53) (-1074) - _).toNat = 1
    omega
  rw [shiftToTargetExponent, shiftToExponent, htarget, ofMantissaAndAccuracy_exact,
    shiftRight_extended _ Nat.one_pos]
  congr 1
  omega

theorem toNat_pack_roundWithAccuracy (sign : UnpackedFloat.Sign) (hb : 0 < b)
    (hdigits : ExtendedMantissa.ofMantissaAndAccuracy m accuracy = extended a b)
    (hm : m = a / b) (hscale : (scale : Int) - 1074 = max (m.log2 + e - 52) (-1074))
    (hshift : e + shift = scale - 1074) :
    (pack .binary64 (roundWithAccuracy .binary64 sign m e accuracy)).toNat =
      sign.toBitVec.toNat * 2 ^ (63 : Nat) +
        min (scale * 2 ^ (52 : Nat) + roundTiesEven a (b * 2 ^ shift)) infinity := by
  have hden : 0 < b * 2 ^ shift := Nat.mul_pos hb (Nat.two_pow_pos shift)
  rw [roundWithAccuracy, shiftToTargetExponent_eq hb hdigits hscale hshift]
  dsimp only
  rw [roundedMantissa_extended a hden]
  have hle : roundTiesEven a (b * 2 ^ shift) ≤ 2 ^ (53 : Nat) := by
    apply roundTiesEven_le hden
    have hlt : m < 2 ^ (53 + shift) := Nat.lt_of_lt_of_le Nat.lt_log2_self
      (Nat.pow_le_pow_right (by decide) (by omega))
    rw [hm, Nat.div_lt_iff_lt_mul hb, Nat.pow_add] at hlt
    rw [Nat.mul_left_comm, Nat.mul_comm]
    omega
  have hge : 2 ^ (52 : Nat) ≤ roundTiesEven a (b * 2 ^ shift) ∨ scale = 0 := by
    rcases Nat.eq_zero_or_pos scale with hzero | hpos
    · exact .inr hzero
    · refine .inl (le_roundTiesEven hden ?_)
      have hlog : m.log2 = 52 + shift := by omega
      have hne : m ≠ 0 := by
        rintro rfl
        rw [Nat.log2_zero] at hlog
        omega
      have hlow := Nat.log2_self_le hne
      rw [hlog, hm, Nat.le_div_iff_mul_le hb, Nat.pow_add] at hlow
      rw [Nat.mul_left_comm, Nat.mul_comm]
      omega
  rcases Nat.lt_or_eq_of_le hle with hlt | heq
  · rw [shiftToTargetExponent_of_lt hlt]
    dsimp only
    rw [show (extended (roundTiesEven a (b * 2 ^ shift)) 1).mantissa =
      roundTiesEven a (b * 2 ^ shift) from Nat.div_one _]
    exact toNat_pack_mantissa sign hlt hge rfl
  · have hnext : (scale : Int) + 1 - 1074 = (scale + 1 : Nat) - 1074 := by omega
    have hcarry : (scale + 1) * 2 ^ (52 : Nat) + 2 ^ (52 : Nat) =
        scale * 2 ^ (52 : Nat) + 2 ^ (53 : Nat) := by
      omega
    have hhalf : (extended (2 ^ (53 : Nat)) 2).mantissa = 2 ^ (52 : Nat) := by decide
    rw [heq, shiftToTargetExponent_carry]
    dsimp only
    rw [toNat_pack_mantissa sign (by rw [hhalf]; decide) (.inl (Nat.le_of_eq hhalf.symm)) hnext,
      hhalf, hcarry]

/-- The scale at which the nearest pattern is searched for is the one that rounding shifts to. -/
theorem scale_eq (hb : 0 < b) (hm : m = a / b) (hfine : 52 ≤ m.log2 ∨ e ≤ -1074) :
    (((a * 2 ^ e.toNat * 2 ^ fineness / (b * 2 ^ (-e).toNat)).log2 - 52 : Nat) : Int) - 1074 =
      max (m.log2 + e - 52) (-1074) := by
  have hfineness : fineness = 1074 := rfl
  rcases Int.le_total (-1074) e with hge | hle
  · obtain ⟨k, hk⟩ : ∃ k : Nat, e = k - 1074 := ⟨(e + 1074).toNat, by omega⟩
    have hquot : a * 2 ^ e.toNat * 2 ^ fineness / (b * 2 ^ (-e).toNat) = a * 2 ^ k / b := by
      rw [Nat.mul_assoc, ← Nat.pow_add, show e.toNat + fineness = k + (-e).toNat by omega,
        Nat.pow_add, ← Nat.mul_assoc, Nat.mul_div_mul_right _ _ (Nat.two_pow_pos _)]
    have hlog : (a * 2 ^ k / b).log2 = m.log2 + k := by
      rcases Nat.lt_or_ge a b with hlt | hba
      · -- the quotient has no digits, so it is rounded at the finest scale
        have hzero : m = 0 := by rw [hm, Nat.div_eq_of_lt hlt]
        rw [hzero, Nat.log2_zero] at hfine
        rw [show k = 0 by omega, Nat.pow_zero, Nat.mul_one, ← hm, Nat.add_zero]
      · rw [log2_mul_two_pow_div hb hba, hm]
    rw [hquot, hlog]
    omega
  · obtain ⟨j, hj⟩ : ∃ j : Nat, -e = 1074 + j := ⟨(-e - 1074).toNat, by omega⟩
    have hquot : a * 2 ^ e.toNat * 2 ^ fineness / (b * 2 ^ (-e).toNat) = m / 2 ^ j := by
      rw [show e.toNat = 0 by omega, Nat.pow_zero, Nat.mul_one,
        show (-e).toNat = j + fineness by omega, Nat.pow_add, ← Nat.mul_assoc,
        Nat.mul_div_mul_right _ _ (Nat.two_pow_pos _), hm, Nat.div_div_eq_div_mul]
    rw [hquot, log2_div_two_pow]
    omega

/-- What is rounded has the pattern nearest to it, and its sign. -/
theorem toNat_pack_eq_nearest (sign : UnpackedFloat.Sign) (hb : 0 < b)
    (hdigits : ExtendedMantissa.ofMantissaAndAccuracy m accuracy = extended a b)
    (hm : m = a / b) (hfine : 52 ≤ m.log2 ∨ e ≤ -1074) :
    (pack .binary64 (roundWithAccuracy .binary64 sign m e accuracy)).toNat =
      sign.toBitVec.toNat * 2 ^ (63 : Nat) +
        nearest (a * 2 ^ e.toNat) (b * 2 ^ (-e).toNat) := by
  have hfineness : fineness = 1074 := rfl
  have hscale := scale_eq hb hm hfine
  rw [nearest]
  generalize (a * 2 ^ e.toNat * 2 ^ fineness / (b * 2 ^ (-e).toNat)).log2 - 52 = scale at hscale ⊢
  obtain ⟨shift, hshift⟩ : ∃ shift : Nat, e + shift = scale - 1074 :=
    ⟨((scale : Int) - 1074 - e).toNat, by omega⟩
  have hround : roundTiesEven (a * 2 ^ e.toNat * 2 ^ fineness) (b * 2 ^ (-e).toNat * 2 ^ scale) =
      roundTiesEven a (b * 2 ^ shift) := by
    rw [Nat.mul_assoc, ← Nat.pow_add, Nat.mul_assoc, ← Nat.pow_add,
      show (-e).toNat + scale = shift + (e.toNat + fineness) by omega, Nat.pow_add _ shift,
      ← Nat.mul_assoc, roundTiesEven_mul_mul _ _ (Nat.two_pow_pos _)]
  rw [hround]
  exact toNat_pack_roundWithAccuracy sign hb hdigits hm hscale hshift

end

end Calculator.Numeral
