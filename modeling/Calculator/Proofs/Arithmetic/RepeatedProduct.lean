import Calculator.Arithmetic.Power
import Calculator.Proofs.Numeral.Products

/-! Powers by multiplication. Main statement: multiplying the size alone, and no longer once the
product is zero or not finite, comes to what the plain product of all the factors comes to. -/

namespace Calculator

open Numeral

attribute [local instance] natPow

theorem multiply_ofMagnitude (p n : Nat) {acc : Nat} (hp : p < 2 ^ (63 : Nat))
    (hacc : acc < 2 ^ (63 : Nat)) :
    multiply (ofMagnitude false p) (ofMagnitude false acc) n =
      ofMagnitude false ((product · p)^[n] acc) := by
  induction n generalizing acc with
  | zero => rfl
  | succ n ih =>
    have hnext := product_lt acc p
    rw [multiply_succ, mul_ofMagnitude false false hacc hp, Bool.bne_false,
      isFinite_ofMagnitude _ hnext, ofMagnitude_beq_zero _ hnext, Function.iterate_succ_apply]
    split_ifs with hstop
    · -- what stops the loop is what further factors leave alone
      have hfixed : product (product acc p) p = product acc p := by
        simp only [Bool.or_eq_true, Bool.not_eq_true', decide_eq_true_eq, decide_eq_false_iff_not,
          Nat.not_lt] at hstop
        rcases hstop with hzero | hinfinite
        · rw [product_product_of_eq_zero hzero, hzero]
        · exact product_product_of_infinity_le hinfinite
      rw [Function.iterate_fixed hfixed n]
    · exact ih hnext

theorem iterate_product_lt (p n : Nat) : (product · p)^[n] one < 2 ^ (63 : Nat) := by
  cases n with
  | zero =>
    rw [Function.iterate_zero_apply]
    decide
  | succ n =>
    rw [Function.iterate_succ_apply']
    exact product_lt _ _

/-- The plain product: its sign follows from the parity of the count. -/
theorem iterate_mul (base : Float) (n : Nat) :
    (· * base)^[n] 1 =
      ofMagnitude (isNegative base && n % 2 == 1) ((product · (magnitude base))^[n] one) := by
  induction n with
  | zero =>
    have heven : (isNegative base && 0 % 2 == 1) = false := Bool.and_false _
    rw [Function.iterate_zero_apply, Function.iterate_zero_apply, heven, ofMagnitude_one]
  | succ n ih =>
    have hmul := mul_ofMagnitude (isNegative base && n % 2 == 1) (isNegative base)
      (iterate_product_lt (magnitude base) n) (magnitude_lt base)
    rw [ofMagnitude_magnitude] at hmul
    rw [Function.iterate_succ_apply', Function.iterate_succ_apply', ih, hmul]
    congr 1
    cases isNegative base with
    | false => rfl
    | true => rcases Nat.mod_two_eq_zero_or_one n with h | h <;> simp [Nat.add_mod, h]

theorem eq_one_of_abs_beq_one {x : Float} (h : (x.abs == 1) = true) : magnitude x = one := by
  have habs : x.abs = 1 := by
    obtain ⟨_, _, habs | ⟨_, habs⟩ | ⟨_, habs⟩⟩ := Float.beq_iff_ne_nan_and_eq.1 h
    · exact habs
    · exact absurd habs (by decide)
    · exact absurd habs (by decide)
  rw [abs_eq, ← ofMagnitude_one] at habs
  have hone : one < infinity := by decide
  have hlt : magnitude x < infinity := by
    apply of_decide_eq_true
    rw [← isFinite_ofMagnitude false (magnitude_lt x), habs, isFinite_ofMagnitude _ (by decide)]
    exact decide_eq_true hone
  rw [← magnitude_ofMagnitude false (Nat.le_of_lt hlt), habs,
    magnitude_ofMagnitude false (Nat.le_of_lt hone)]

/-- However the product of the sizes is found, the sign follows from the parity of the count. -/
theorem repeatedProduct_of_size {base : Float} {count p : Nat} (hp : p < 2 ^ (63 : Nat))
    (h : (if base.abs == 1 then 1
      else if maxFactors < count then hugePower base.abs count
      else multiply base.abs 1 count) = ofMagnitude false p) :
    repeatedProduct base count = ofMagnitude (isNegative base && count % 2 == 1) p := by
  rw [repeatedProduct]
  simp only [h]
  split_ifs with hsign
  · rw [neg_ofMagnitude _ hp, hsign, Bool.not_false]
  · rw [Bool.eq_false_of_not_eq_true hsign]

theorem repeatedProduct_eq (base : Float) {count : Nat} (h : count ≤ maxFactors) :
    repeatedProduct base count =
      ofMagnitude (isNegative base && count % 2 == 1)
        ((product · (magnitude base))^[count] one) := by
  apply repeatedProduct_of_size (iterate_product_lt ..)
  split_ifs with hone hcount
  · rw [eq_one_of_abs_beq_one hone, Function.iterate_fixed (by decide +kernel), ofMagnitude_one]
  · exact absurd h (Nat.not_le.2 hcount)
  · rw [abs_eq, ← ofMagnitude_one, multiply_ofMagnitude _ _ (magnitude_lt base) (by decide)]

/-- Up to the largest number of factors, the power is the plain product of so many copies of the
base: also where it is zero, infinite or not a number, and with the sign of zero. -/
theorem repeatedProduct_eq_iterate (base : Float) {count : Nat} (h : count ≤ maxFactors) :
    repeatedProduct base count = (· * base)^[count] 1 := by
  rw [repeatedProduct_eq base h, iterate_mul]

/-- An odd power of a negative number that is too small keeps the minus in front of zero. -/
theorem repeatedProduct_eq_iterate_underflow :
    3 ≤ maxFactors ∧ repeatedProduct (-1e-200) 3 = (· * (-1e-200))^[3] 1 ∧
      repeatedProduct (-1e-200) 3 = -0 :=
  ⟨by decide, repeatedProduct_eq_iterate _ (by decide), by decide +kernel⟩

end Calculator
