import Calculator.Proofs.Numeral.Parts
import Calculator.Proofs.Numeral.Rounded

/-! Products and quotients of doubles. Main statements: their sign is that of the sides together,
and their magnitude is the one nearest to the product or the quotient of the sizes. -/

namespace Calculator.Numeral

open Float.Model (UnpackedFloat)
open Float.Model.UnpackedFloat

attribute [local instance] natPow

/-- The pattern of what is no number. -/
def notNumber : Nat := infinity + 2 ^ (51 : Nat)

/-- The magnitude of a product, from those of the factors. -/
def product (p q : Nat) : Nat :=
  if infinity < p ∨ infinity < q then notNumber
  else if p = infinity then if q = 0 then notNumber else infinity
  else if q = infinity then if p = 0 then notNumber else infinity
  else nearest (units p * units q) (2 ^ (fineness + fineness))

/-- The magnitude of a quotient, from those of the sides. -/
def quotient (p q : Nat) : Nat :=
  if infinity < p ∨ infinity < q then notNumber
  else if p = infinity then if q = infinity then notNumber else infinity
  else if q = infinity then 0
  else if q = 0 then if p = 0 then notNumber else infinity
  else nearest (units p) (units q)

section

variable {p q : Nat} (a b : Bool)

theorem ofModel_pack_notANumber : Float.ofModel (.pack .notANumber) = ofMagnitude a notNumber := by
  rw [← ofModel_pack_unpacked a (p := notNumber) (by decide),
    unpacked_of_gt a (p := notNumber) (by decide)]

theorem ofModel_pack_infinity :
    Float.ofModel (.pack (.infinity (sign a))) = ofMagnitude a infinity := by
  rw [← ofModel_pack_unpacked a (p := infinity) (by decide), unpacked_infinity]

theorem ofModel_pack_zero : Float.ofModel (.pack (.zero (sign a))) = ofMagnitude a 0 := by
  rw [← ofModel_pack_unpacked a (p := 0) (by decide), unpacked_zero]

/-! ### Products -/

theorem product_lt (p q : Nat) : product p q < 2 ^ (63 : Nat) := by
  have hinfinity : infinity = 2047 * 2 ^ (52 : Nat) := rfl
  have hnotNumber : notNumber = infinity + 2 ^ (51 : Nat) := rfl
  have := nearest_le_infinity (units p * units q) (2 ^ (fineness + fineness))
  rw [product]
  split_ifs <;> omega

theorem ofModel_pack_mul_finite (hp : p < infinity) (hq : q < infinity) :
    Float.ofModel (.pack (UnpackedFloat.mul .binary64 (unpacked a p) (unpacked b q))) =
      ofMagnitude (a != b) (nearest (units p * units q) (2 ^ (fineness + fineness))) := by
  have hinfinity : infinity = 2047 * 2 ^ (52 : Nat) := rfl
  have hfineness : fineness = 1074 := rfl
  by_cases hp0 : p = 0
  · have hmul : UnpackedFloat.mul .binary64 (unpacked a p) (unpacked b q) =
        .zero (sign (a != b)) := by
      rw [hp0, unpacked_zero, ← sign_mul]
      by_cases hq0 : q = 0
      · rw [hq0, unpacked_zero]
        rfl
      · rw [unpacked_of_lt b hq0 hq]
        rfl
    rw [hmul, hp0, units_zero, Nat.zero_mul, nearest_zero, ofModel_pack_zero]
  by_cases hq0 : q = 0
  · have hmul : UnpackedFloat.mul .binary64 (unpacked a p) (unpacked b q) =
        .zero (sign (a != b)) := by
      rw [hq0, unpacked_zero, unpacked_of_lt a hp0 hp, ← sign_mul]
      rfl
    rw [hmul, hq0, units_zero, Nat.mul_zero, nearest_zero, ofModel_pack_zero]
  have hfine : 52 ≤ (digits p * digits q).log2 ∨
      (scale p : Int) - 1074 + (scale q - 1074) ≤ -1074 := by
    have hpos := digits_pos hp0
    have hpos' := digits_pos hq0
    rcases digits_form p with hform | hform
    · exact .inl ((Nat.le_log2 (Nat.ne_of_gt (Nat.mul_pos hpos hpos'))).2
        (Nat.le_trans hform (Nat.le_mul_of_pos_right _ hpos')))
    · rcases digits_form q with hform' | hform'
      · exact .inl ((Nat.le_log2 (Nat.ne_of_gt (Nat.mul_pos hpos hpos'))).2
          (Nat.le_trans hform' (Nat.le_mul_of_pos_left _ hpos)))
      · omega
  rw [unpacked_of_lt a hp0 hp, unpacked_of_lt b hq0 hq, UnpackedFloat.mul, sign_mul]
  refine ofModel_pack ?_ (nearest_lt ..)
  rw [toNat_pack_eq_nearest _ Nat.one_pos (ofMantissaAndAccuracy_exact _) (Nat.div_one _).symm hfine,
    nearest_mul_pow (k := scale p + scale q) (l := fineness + fineness) Nat.one_pos (by omega),
    Nat.one_mul, Nat.pow_add 2 (scale p), Nat.mul_mul_mul_comm, ← units_eq, ← units_eq]

theorem ofModel_pack_mul (p q : Nat) :
    Float.ofModel (.pack (UnpackedFloat.mul .binary64 (unpacked a p) (unpacked b q))) =
      ofMagnitude (a != b) (product p q) := by
  rw [product]
  split_ifs with hnone hp hq hq hp
  · rw [← ofModel_pack_notANumber]
    rcases hnone with hp | hq
    · rw [unpacked_of_gt a hp]
      rfl
    · rw [unpacked_of_gt b hq]
      cases unpacked a p <;> rfl
  · rw [hp, hq, unpacked_infinity, unpacked_zero, ← ofModel_pack_notANumber]
    rfl
  · rw [hp, unpacked_infinity, ← ofModel_pack_infinity, ← sign_mul]
    rcases Nat.lt_or_ge q infinity with hlt | hge
    · rw [unpacked_of_lt b hq hlt]
      rfl
    · rw [show q = infinity by omega, unpacked_infinity]
      rfl
  · rw [hq, hp, unpacked_infinity, unpacked_zero, ← ofModel_pack_notANumber]
    rfl
  · rw [hq, unpacked_infinity, unpacked_of_lt a hp (by omega), ← ofModel_pack_infinity, ← sign_mul]
    rfl
  · exact ofModel_pack_mul_finite a b (by omega) (by omega)

/-- The sign of a product is that of the factors together, its magnitude that of the product of
their sizes. -/
theorem mul_ofMagnitude (hp : p < 2 ^ (63 : Nat)) (hq : q < 2 ^ (63 : Nat)) :
    ofMagnitude a p * ofMagnitude b q = ofMagnitude (a != b) (product p q) := by
  rw [← ofModel_pack_mul, ← unpack_ofMagnitude a hp, ← unpack_ofMagnitude b hq]
  rfl

theorem mul_eq (x y : Float) :
    x * y = ofMagnitude (isNegative x != isNegative y) (product (magnitude x) (magnitude y)) := by
  rw [← mul_ofMagnitude _ _ (magnitude_lt x) (magnitude_lt y), ofMagnitude_magnitude,
    ofMagnitude_magnitude]

/-- No finite product has a factor that is not finite. -/
theorem lt_of_product_lt (h : product p q < infinity) : p < infinity ∧ q < infinity := by
  have hnotNumber : infinity < notNumber := by decide
  rw [product] at h
  split_ifs at h <;> omega

/-- A product that is zero stays so: the factor that made it is finite. -/
theorem product_product_of_eq_zero (h : product p q = 0) : product (product p q) q = 0 := by
  have hinfinity : infinity ≠ 0 := by decide
  have hnotNumber : notNumber ≠ 0 := by decide
  have hq : q < infinity := by
    rw [product] at h
    split_ifs at h <;> omega
  rw [h, product, if_neg (by omega), if_neg hinfinity.symm, if_neg (by omega), units_zero,
    Nat.zero_mul, nearest_zero]

/-- A product that is not finite stays what it is: infinity is not reached by a factor of zero. -/
theorem product_product_of_infinity_le (h : infinity ≤ product p q) :
    product (product p q) q = product p q := by
  have hinfinity : infinity ≠ 0 := by decide
  have hnotNumber : infinity < notNumber := by decide
  have hcases : product p q = notNumber ∨
      product p q = infinity ∧ q ≠ 0 ∧ q ≤ infinity := by
    have hle := nearest_le_infinity (units p * units q) (2 ^ (fineness + fineness))
    rw [product] at h ⊢
    split_ifs at h ⊢ with hnone hp hq hq hp
    · exact .inl rfl
    · exact .inl rfl
    · exact .inr ⟨rfl, hq, by omega⟩
    · exact .inl rfl
    · exact .inr ⟨rfl, by omega, by omega⟩
    · refine .inr ⟨Nat.le_antisymm hle h, ?_, by omega⟩
      rintro rfl
      rw [units_zero, Nat.mul_zero, nearest_zero] at h
      omega
  rcases hcases with heq | ⟨heq, hne, hle⟩
  · rw [heq, product, if_pos (.inl hnotNumber)]
  · rw [heq, product, if_neg (by omega), if_pos rfl, if_neg hne]

/-! ### Quotients -/

theorem fine_of_divCore {m n : Nat} {e f : Int} (hm : 0 < m) (hn : 0 < n) :
    ∃ shift : Nat, ∃ t : Int, e - f = t + shift ∧
      divCore .binary64 m e n f =
        (m * 2 ^ shift / n, t, accuracyOfFraction (m * 2 ^ shift % n) n) ∧
      (52 ≤ (m * 2 ^ shift / n).log2 ∨ t ≤ -1074) := by
  obtain ⟨t, ht⟩ : ∃ t : Int, t = min (e - f) (max ((m.log2 : Int) + e - n.log2 - f - 53) (-1074)) :=
    ⟨_, rfl⟩
  have htarget : min (e - f) (Float.Model.Format.binary64.targetExponent
      (Float.Model.totalExponent m e - Float.Model.totalExponent n f)) = t := by
    change min (e - f) (max ((m.log2 : Int) + 1 + e - (n.log2 + 1 + f) - 53) (-1074)) = t
    omega
  refine ⟨(e - f - t).toNat, t, by omega, ?_, ?_⟩
  · rw [divCore, htarget, Nat.shiftLeft_eq]
  · by_cases hfine : t ≤ -1074
    · exact .inr hfine
    · left
      have hshift : n.log2 + 53 ≤ m.log2 + (e - f - t).toNat := by omega
      have hlow : 2 ^ (52 : Nat) * 2 ^ (n.log2 + 1) ≤ m * 2 ^ (e - f - t).toNat := calc
        2 ^ (52 : Nat) * 2 ^ (n.log2 + 1)
        _ ≤ 2 ^ (m.log2 + (e - f - t).toNat) := by
          rw [← Nat.pow_add]
          exact Nat.pow_le_pow_right (by decide) (by omega)
        _ ≤ m * 2 ^ (e - f - t).toNat := by
          rw [Nat.pow_add]
          exact Nat.mul_le_mul_right _ (Nat.log2_self_le (Nat.ne_of_gt hm))
      have hquot : 2 ^ (52 : Nat) ≤ m * 2 ^ (e - f - t).toNat / n := by
        rw [Nat.le_div_iff_mul_le hn]
        exact Nat.le_trans (Nat.mul_le_mul_left _ (Nat.le_of_lt Nat.lt_log2_self)) hlow
      exact (Nat.le_log2 (by omega)).2 hquot

theorem ofModel_pack_div_finite (hp : p < infinity) (hq : q < infinity) (hne : q ≠ 0) :
    Float.ofModel (.pack (UnpackedFloat.div .binary64 (unpacked a p) (unpacked b q))) =
      ofMagnitude (a != b) (nearest (units p) (units q)) := by
  by_cases hp0 : p = 0
  · have hdiv : UnpackedFloat.div .binary64 (unpacked a p) (unpacked b q) =
        .zero (sign (a != b)) := by
      rw [hp0, unpacked_zero, unpacked_of_lt b hne hq, ← sign_div]
      rfl
    rw [hdiv, hp0, units_zero, nearest_zero, ofModel_pack_zero]
  have hpos := digits_pos hne
  obtain ⟨shift, t, ht, hcore, hfine⟩ := fine_of_divCore (e := scale p - 1074) (f := scale q - 1074)
    (digits_pos hp0) hpos
  rw [unpacked_of_lt a hp0 hp, unpacked_of_lt b hne hq, UnpackedFloat.div, hcore]
  dsimp only
  rw [sign_div]
  refine ofModel_pack ?_ (nearest_lt ..)
  rw [toNat_pack_eq_nearest _ hpos (ofMantissaAndAccuracy_fraction _ hpos) rfl hfine,
    nearest_mul_pow (k := scale p) (l := scale q + shift) hpos (by omega), Nat.pow_add 2 (scale q),
    ← Nat.mul_assoc, Nat.mul_right_comm, nearest_mul_mul _ _ (Nat.two_pow_pos shift), ← units_eq,
    ← units_eq]

theorem ofModel_pack_div (p q : Nat) :
    Float.ofModel (.pack (UnpackedFloat.div .binary64 (unpacked a p) (unpacked b q))) =
      ofMagnitude (a != b) (quotient p q) := by
  rw [quotient]
  split_ifs with hnone hp hq hq hq hp
  · rw [← ofModel_pack_notANumber]
    rcases hnone with hp | hq
    · rw [unpacked_of_gt a hp]
      rfl
    · rw [unpacked_of_gt b hq]
      cases unpacked a p <;> rfl
  · rw [hp, hq, unpacked_infinity, unpacked_infinity, ← ofModel_pack_notANumber]
    rfl
  · rw [hp, unpacked_infinity, ← ofModel_pack_infinity, ← sign_div]
    by_cases hzero : q = 0
    · rw [hzero, unpacked_zero]
      rfl
    · rw [unpacked_of_lt b hzero (by omega)]
      rfl
  · rw [hq, unpacked_infinity, ← ofModel_pack_zero, ← sign_div]
    by_cases hzero : p = 0
    · rw [hzero, unpacked_zero]
      rfl
    · rw [unpacked_of_lt a hzero (by omega)]
      rfl
  · rw [hp, hq, unpacked_zero, unpacked_zero, ← ofModel_pack_notANumber]
    rfl
  · rw [hq, unpacked_zero, unpacked_of_lt a hp (by omega), ← ofModel_pack_infinity, ← sign_div]
    rfl
  · exact ofModel_pack_div_finite a b (by omega) (by omega) (by omega)

/-- The sign of a quotient is that of the sides together, its magnitude that of the quotient of
their sizes. -/
theorem div_ofMagnitude (hp : p < 2 ^ (63 : Nat)) (hq : q < 2 ^ (63 : Nat)) :
    ofMagnitude a p / ofMagnitude b q = ofMagnitude (a != b) (quotient p q) := by
  rw [← ofModel_pack_div, ← unpack_ofMagnitude a hp, ← unpack_ofMagnitude b hq]
  rfl

theorem quotient_lt (p q : Nat) : quotient p q < 2 ^ (63 : Nat) := by
  have hinfinity : infinity = 2047 * 2 ^ (52 : Nat) := rfl
  have hnotNumber : notNumber = infinity + 2 ^ (51 : Nat) := rfl
  have := nearest_le_infinity (units p) (units q)
  rw [quotient]
  split_ifs <;> omega

theorem div_eq (x y : Float) :
    x / y = ofMagnitude (isNegative x != isNegative y) (quotient (magnitude x) (magnitude y)) := by
  rw [← div_ofMagnitude _ _ (magnitude_lt x) (magnitude_lt y), ofMagnitude_magnitude,
    ofMagnitude_magnitude]

/-- A finite quotient is that of a finite number by one that is not zero. -/
theorem lt_of_quotient_lt (h : quotient p q < infinity) :
    p < infinity ∧ q ≤ infinity ∧ q ≠ 0 := by
  have hnotNumber : infinity < notNumber := by decide
  rw [quotient] at h
  split_ifs at h <;> omega

end

end Calculator.Numeral
