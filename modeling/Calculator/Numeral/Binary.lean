/-! Doubles through their 64-bit patterns. Without its sign bit a pattern counts the doubles
from zero up, so patterns stand for magnitudes in order. Every finite magnitude is a whole
multiple of `2 ^ -1074`, which makes comparing and rounding a matter of natural numbers. -/

namespace Calculator.Numeral

/-- Powers of natural numbers as they are in core, whatever else is imported. -/
abbrev natPow : Pow Nat Nat := instPowNat

attribute [local instance] natPow

/-- Binary places of the finest double; also decimal places, as `2 ^ -n = 5 ^ n * 10 ^ -n`. -/
def fineness : Nat := 1074

/-- The pattern of infinity: finite magnitudes lie below it, those that are no number above. -/
def infinity : Nat := 2047 * 2 ^ (52 : Nat)

/-- The pattern without its sign bit. -/
def magnitude (x : Float) : Nat := x.toBits.toNat % 2 ^ (63 : Nat)

def isNegative (x : Float) : Bool := 2 ^ (63 : Nat) ≤ x.toBits.toNat

/-- The double with the given sign and magnitude. -/
def ofMagnitude (negative : Bool) (pattern : Nat) : Float :=
  .ofBits (.ofNat (if negative then 2 ^ (63 : Nat) + pattern else pattern))

/-- The size of a finite magnitude in units of `2 ^ -1074`. -/
def units (pattern : Nat) : Nat :=
  if pattern < 2 ^ (52 : Nat) then pattern
  else (2 ^ (52 : Nat) + pattern % 2 ^ (52 : Nat)) * 2 ^ (pattern / 2 ^ (52 : Nat) - 1)

/-- The whole number nearest to `num / den`; a tie goes to the even one. -/
def roundTiesEven (num den : Nat) : Nat :=
  let floor := num / den
  if 2 * (num % den) < den then floor
  else if den < 2 * (num % den) then floor + 1
  else floor + floor % 2

/-- The pattern nearest to `num / den`, to be read as infinity when that is too large. The
scale is the one that leaves 53 binary digits, or the finest. -/
def nearest (num den : Nat) : Nat :=
  let scale := (num * 2 ^ fineness / den).log2 - 52
  min (scale * 2 ^ (52 : Nat) + roundTiesEven (num * 2 ^ fineness) (den * 2 ^ scale)) infinity

/-- The double nearest to a natural number. -/
def ofNat (n : Nat) : Float := ofMagnitude false (nearest n 1)

theorem roundTiesEven_mul (n : Nat) {den : Nat} (h : 0 < den) :
    roundTiesEven (n * den) den = n := by
  simp [roundTiesEven, h]

/-- Twice the rounding error is at most one part of the denominator. -/
theorem roundTiesEven_near (num : Nat) {den : Nat} (h : 0 < den) :
    2 * num ≤ 2 * (roundTiesEven num den * den) + den ∧
      2 * (roundTiesEven num den * den) ≤ 2 * num + den := by
  have hdiv := Nat.div_add_mod num den
  have hmod := Nat.mod_lt num h
  rw [Nat.mul_comm] at hdiv
  simp only [roundTiesEven]
  split
  · omega
  · split
    · rw [Nat.add_mul]; omega
    · rcases Nat.mod_two_eq_zero_or_one (num / den) with he | he
      · rw [he, Nat.add_zero]; omega
      · rw [he, Nat.add_mul]; omega

theorem roundTiesEven_mul_mul (num den : Nat) {k : Nat} (h : 0 < k) :
    roundTiesEven (num * k) (den * k) = roundTiesEven num den := by
  simp only [roundTiesEven, Nat.mul_div_mul_right _ _ h, Nat.mul_mod_mul_right]
  rw [← Nat.mul_assoc]
  simp only [Nat.mul_lt_mul_right h]

/-- Only the quotient counts. -/
theorem nearest_mul_mul (num den : Nat) {k : Nat} (h : 0 < k) :
    nearest (num * k) (den * k) = nearest num den := by
  simp only [nearest, Nat.mul_right_comm _ k, Nat.mul_div_mul_right _ _ h,
    roundTiesEven_mul_mul _ _ h]

theorem log2_mul_two_pow {n : Nat} (h : n ≠ 0) (k : Nat) : (n * 2 ^ k).log2 = n.log2 + k := by
  have hpos : 0 < 2 ^ k := Nat.two_pow_pos k
  rw [Nat.log2_eq_iff (Nat.mul_ne_zero h (Nat.ne_of_gt hpos)), Nat.pow_add, Nat.add_right_comm,
    Nat.pow_add]
  exact ⟨Nat.mul_le_mul_right _ (Nat.log2_self_le h),
    Nat.mul_lt_mul_of_pos_right Nat.lt_log2_self hpos⟩

/-- Every finite magnitude is the nearest one to its own size. -/
theorem nearest_units {pattern : Nat} (h : pattern < infinity) :
    nearest (units pattern) (2 ^ fineness) = pattern := by
  have hF : 0 < 2 ^ fineness := Nat.two_pow_pos _
  rw [nearest, Nat.mul_div_cancel _ hF]
  suffices hs : (units pattern).log2 - 52 = pattern / 2 ^ (52 : Nat) - 1 ∧
      units pattern = (pattern - (pattern / 2 ^ (52 : Nat) - 1) * 2 ^ (52 : Nat)) *
        2 ^ (pattern / 2 ^ (52 : Nat) - 1) by
    rw [hs.1, hs.2, Nat.mul_assoc, Nat.mul_comm (2 ^ (_ - 1)),
      roundTiesEven_mul _ (Nat.mul_pos hF (Nat.two_pow_pos _))]
    omega
  unfold units
  split
  · rename_i hlt
    rw [Nat.div_eq_of_lt hlt]
    have : pattern.log2 ≤ 52 := by
      by_cases h0 : pattern = 0
      · simp [h0]
      · exact Nat.le_of_lt ((Nat.log2_lt h0).2 hlt)
    simp
    omega
  · have hmod : pattern % 2 ^ (52 : Nat) < 2 ^ (52 : Nat) := Nat.mod_lt _ (by decide)
    have hlog : (2 ^ (52 : Nat) + pattern % 2 ^ (52 : Nat)).log2 = 52 := by
      rw [Nat.log2_eq_iff (by omega)]
      omega
    rw [log2_mul_two_pow (by omega), hlog]
    refine ⟨by omega, ?_⟩
    congr 1
    omega

end Calculator.Numeral
