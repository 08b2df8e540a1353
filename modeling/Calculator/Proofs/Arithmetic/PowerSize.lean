import Calculator.Proofs.Arithmetic.RepeatedProduct
import Calculator.Proofs.Numeral.Value

/-! The sign and the size of powers. Main statements: an odd power has the sign of its base, and a
power of what is no larger than a power of a half is no larger than that power of it, or than the
finest double. -/

namespace Calculator

open Numeral

attribute [local instance] natPow

/-- With so many factors that the power function is used, it gives what is positive a power without
a minus. -/
def PowersArePlain (count : Nat) : Prop :=
  maxFactors < count → ∀ size : Float, 0 < size → isNegative (size.pow (ofNat count)) = false

section

variable {base : Float} {count : Nat}

theorem abs_le_half_iff : base.abs ≤ 0.5 ↔ magnitude base ≤ half := by
  have hhalf : half ≤ infinity := by decide
  rw [← ofMagnitude_half, le_iff_of_unpack (unpack_abs base) (unpack_ofMagnitude false (by decide))]
  simp only [signed, Bool.false_eq_true, if_false, Int.ofNat_le]
  omega

theorem not_two_le_abs (h : magnitude base ≤ half) : ¬2 ≤ base.abs := by
  have htwo : half < two := by decide
  rw [← ofMagnitude_two, le_iff_of_unpack (unpack_ofMagnitude false (by decide)) (unpack_abs base)]
  simp only [signed, Bool.false_eq_true, if_false, Int.ofNat_le]
  omega

theorem exists_hugePower (hbase : base.isFinite) (hcount : maxFactors < count)
    (hpow : PowersArePlain count) :
    ∃ p < 2 ^ (63 : Nat), hugePower base.abs count = ofMagnitude false p := by
  rw [hugePower]
  split_ifs with htwo hhalf
  · exact ⟨infinity, by decide, rfl⟩
  · exact ⟨0, by decide, ofMagnitude_zero.symm⟩
  · rw [isFinite_iff] at hbase
    rw [abs_le_half_iff] at hhalf
    have hpos : 0 < base.abs := by
      rw [lt_iff_of_unpack unpack_zero (unpack_abs base)]
      simp only [signed, Bool.false_eq_true, if_false, Int.ofNat_lt]
      omega
    refine ⟨magnitude (base.abs.pow (ofNat count)), magnitude_lt _, ?_⟩
    rw [← hpow hcount _ hpos, ofMagnitude_magnitude]

/-- An odd power has the sign of its base. -/
theorem exists_repeatedProduct_of_odd (hbase : base.isFinite) (hodd : count % 2 = 1)
    (hpow : PowersArePlain count) :
    ∃ p < 2 ^ (63 : Nat), repeatedProduct base count = ofMagnitude (isNegative base) p := by
  have hsign : (isNegative base && count % 2 == 1) = isNegative base := by
    rw [hodd]
    exact Bool.and_true _
  rw [← hsign]
  rcases Nat.lt_or_ge maxFactors count with hcount | hcount
  · by_cases hone : base.abs == 1
    · refine ⟨one, by decide, repeatedProduct_of_size (by decide) ?_⟩
      rw [if_pos hone, ofMagnitude_one]
    · obtain ⟨p, hp, hhuge⟩ := exists_hugePower hbase hcount hpow
      refine ⟨p, hp, repeatedProduct_of_size hp ?_⟩
      rw [if_neg hone, if_pos hcount, hhuge]
  · exact ⟨_, iterate_product_lt (magnitude base) count, repeatedProduct_eq base hcount⟩

theorem abs_value_iterate_mul_le {j : Nat} (hbase : base.isFinite)
    (hsmall : |value base| ≤ (1 / 2) ^ j) (n : Nat) :
    ((· * base)^[n] 1).isFinite ∧
      |value ((· * base)^[n] 1)| ≤ (1 / 2) ^ min (j * n) fineness := by
  induction n with
  | zero =>
    obtain ⟨hfinite, hvalue⟩ := value_one
    rw [Function.iterate_zero_apply, Nat.mul_zero, Nat.zero_min, pow_zero, hvalue, abs_one]
    exact ⟨hfinite, le_rfl⟩
  | succ n ih =>
    obtain ⟨hfinite, hle⟩ := ih
    rw [Function.iterate_succ_apply']
    obtain ⟨hz, hvalue⟩ := value_half_pow (Nat.min_le_right (j * (n + 1)) fineness)
    have habs : |((1 : ℚ) / 2) ^ min (j * (n + 1)) fineness| =
        (1 / 2) ^ min (j * (n + 1)) fineness := abs_of_nonneg (by positivity)
    have hexact : |value ((· * base)^[n] 1) * value base| ≤
        (1 / 2) ^ min (j * (n + 1)) fineness := calc
      |value ((· * base)^[n] 1) * value base|
      _ = |value ((· * base)^[n] 1)| * |value base| := abs_mul _ _
      _ ≤ (1 / 2) ^ min (j * n) fineness * (1 / 2) ^ j :=
        mul_le_mul hle hsmall (abs_nonneg _) (by positivity)
      _ = (1 / 2) ^ (min (j * n) fineness + j) := (pow_add _ _ _).symm
      _ ≤ (1 / 2) ^ min (j * (n + 1)) fineness := by
        apply pow_le_pow_of_le_one (by norm_num) (by norm_num)
        rw [Nat.mul_succ]
        omega
    have hstep := (rounds_mul hfinite hbase).abs_le hz (by rwa [hvalue, habs])
    rwa [hvalue, habs] at hstep

/-- A power is no larger than that of a power of a half that the base does not exceed, or than the
finest double. -/
theorem abs_value_repeatedProduct_le {j : Nat} (hbase : base.isFinite) (hj : 1 ≤ j)
    (hsmall : |value base| ≤ (1 / 2) ^ j) (count : Nat) :
    (repeatedProduct base count).isFinite ∧
      |value (repeatedProduct base count)| ≤ (1 / 2) ^ min (j * count) fineness := by
  rcases Nat.lt_or_ge maxFactors count with hcount | hcount
  · obtain ⟨hz, hvalue⟩ := value_half_pow (m := 1) (by decide)
    have hnearest : nearest 1 (2 ^ (1 : Nat)) = half := by decide +kernel
    have hhalf : magnitude base ≤ half := by
      rw [← magnitude_ofMagnitude false (show half ≤ infinity by decide), ← hnearest,
        ← abs_value_le_iff hbase hz, hvalue]
      calc |value base|
        _ ≤ (1 / 2) ^ j := hsmall
        _ ≤ (1 / 2) ^ 1 := pow_le_pow_of_le_one (by norm_num) (by norm_num) hj
        _ ≤ _ := le_abs_self _
    have hone : ¬(base.abs == 1) = true := by
      intro h
      rw [eq_one_of_abs_beq_one h] at hhalf
      exact absurd hhalf (by decide)
    have hzero : repeatedProduct base count =
        ofMagnitude (isNegative base && count % 2 == 1) 0 := by
      apply repeatedProduct_of_size (by decide)
      rw [if_neg hone, if_pos hcount, hugePower, if_neg (not_two_le_abs hhalf),
        if_pos (abs_le_half_iff.2 hhalf), ofMagnitude_zero]
    rw [hzero, isFinite_ofMagnitude _ (by decide), abs_value, magnitude_ofMagnitude _ (by decide),
      units_zero, Nat.cast_zero, zero_mul]
    exact ⟨by decide, by positivity⟩
  · rw [repeatedProduct_eq base hcount, ← iterate_mul]
    exact abs_value_iterate_mul_le hbase hsmall count

end

end Calculator
