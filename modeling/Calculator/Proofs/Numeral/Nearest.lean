import Calculator.Numeral.Binary

/-! The pattern nearest to a fraction. Main statements: a larger fraction has no smaller pattern, so
that magnitudes are ordered as their patterns are; and the magnitude found differs from the fraction
by no more than half of the last of its 53 binary digits. -/

namespace Calculator.Numeral

attribute [local instance] natPow

/-! ### Rounding to whole numbers -/

section

variable {num num' den bound : Nat}

theorem roundTiesEven_le (hden : 0 < den) (h : num ≤ bound * den) :
    roundTiesEven num den ≤ bound := by
  have hnear := (roundTiesEven_near num hden).2
  have hle : 2 * roundTiesEven num den * den ≤ (2 * bound + 1) * den := by
    rw [Nat.add_mul, Nat.mul_assoc, Nat.mul_assoc, Nat.one_mul]
    omega
  have := Nat.le_of_mul_le_mul_right hle hden
  omega

theorem le_roundTiesEven (hden : 0 < den) (h : bound * den ≤ num) :
    bound ≤ roundTiesEven num den := by
  have hnear := (roundTiesEven_near num hden).1
  have hle : 2 * bound * den ≤ (2 * roundTiesEven num den + 1) * den := by
    rw [Nat.add_mul, Nat.mul_assoc, Nat.mul_assoc, Nat.one_mul]
    omega
  have := Nat.le_of_mul_le_mul_right hle hden
  omega

theorem roundTiesEven_mono (hden : 0 < den) (h : num ≤ num') :
    roundTiesEven num den ≤ roundTiesEven num' den := by
  apply Nat.le_of_not_lt
  intro hlt
  have hnear := (roundTiesEven_near num hden).2
  have hnear' := (roundTiesEven_near num' hden).1
  have hle : (roundTiesEven num' den + 1) * den ≤ roundTiesEven num den * den :=
    Nat.mul_le_mul_right _ hlt
  rw [Nat.add_mul, Nat.one_mul] at hle
  -- only a tie is left, which both numbers are
  obtain rfl : num = num' := by omega
  exact Nat.lt_irrefl _ hlt

end

/-! ### Scales -/

theorem log2_mono {m n : Nat} (h : m ≤ n) : m.log2 ≤ n.log2 := by
  rcases Nat.eq_zero_or_pos m with rfl | hpos
  · rw [Nat.log2_zero]
    exact Nat.zero_le _
  · have hm : m ≠ 0 := Nat.ne_of_gt hpos
    have hn : n ≠ 0 := by omega
    exact (Nat.le_log2 hn).2 (Nat.le_trans (Nat.log2_self_le hm) h)

/-- The scale that leaves 53 binary digits of a quotient, or the finest. -/
theorem scale_bounds (num : Nat) {den : Nat} (hden : 0 < den) :
    num ≤ 2 ^ (53 : Nat) * (den * 2 ^ ((num / den).log2 - 52)) ∧
      ((num / den).log2 - 52 ≠ 0 →
        2 ^ (52 : Nat) * (den * 2 ^ ((num / den).log2 - 52)) ≤ num) := by
  constructor
  · have hlt : num / den < 2 ^ (53 + ((num / den).log2 - 52)) := Nat.lt_of_lt_of_le
      Nat.lt_log2_self (Nat.pow_le_pow_right (by decide) (by omega))
    rw [Nat.div_lt_iff_lt_mul hden, Nat.pow_add, Nat.mul_assoc] at hlt
    rw [Nat.mul_comm den]
    exact Nat.le_of_lt hlt
  · intro hscale
    have hne : num / den ≠ 0 := by
      intro hzero
      rw [hzero, Nat.log2_zero] at hscale
      exact hscale rfl
    have hle := Nat.log2_self_le hne
    rw [show (num / den).log2 = 52 + ((num / den).log2 - 52) by omega,
      Nat.le_div_iff_mul_le hden, Nat.pow_add, Nat.mul_assoc] at hle
    rwa [Nat.mul_comm den]

/-! ### Patterns -/

section

variable {num num' den den' : Nat}

theorem nearest_le_infinity (num den : Nat) : nearest num den ≤ infinity := Nat.min_le_right ..

theorem nearest_lt (num den : Nat) : nearest num den < 2 ^ (63 : Nat) :=
  Nat.lt_of_le_of_lt (nearest_le_infinity num den) (by decide)

@[simp] theorem nearest_zero (den : Nat) : nearest 0 den = 0 := by
  simp [nearest, roundTiesEven]

/-- Fractions of one value have one pattern. -/
theorem nearest_congr (hden : 0 < den) (hden' : 0 < den') (h : num * den' = num' * den) :
    nearest num den = nearest num' den' := by
  rw [← nearest_mul_mul num den hden', h, Nat.mul_comm den, nearest_mul_mul num' den' hden]

/-- Sides taken to powers of two that differ by as much make up one fraction. -/
theorem nearest_mul_pow {m n i j k l : Nat} (hn : 0 < n) (h : i + l = k + j) :
    nearest (m * 2 ^ i) (n * 2 ^ j) = nearest (m * 2 ^ k) (n * 2 ^ l) := by
  apply nearest_congr (Nat.mul_pos hn (Nat.two_pow_pos j)) (Nat.mul_pos hn (Nat.two_pow_pos l))
  rw [Nat.mul_mul_mul_comm m, Nat.mul_mul_mul_comm m (2 ^ k), ← Nat.pow_add, ← Nat.pow_add, h]

theorem nearest_mono_num (hden : 0 < den) (h : num ≤ num') :
    nearest num den ≤ nearest num' den := by
  have hsizes : num * 2 ^ fineness ≤ num' * 2 ^ fineness := Nat.mul_le_mul_right _ h
  rw [nearest, nearest]
  generalize num * 2 ^ fineness = size at *
  generalize num' * 2 ^ fineness = size' at *
  have hscales : (size / den).log2 - 52 ≤ (size' / den).log2 - 52 :=
    Nat.sub_le_sub_right (log2_mono (Nat.div_le_div_right hsizes)) 52
  obtain ⟨hhigh, _⟩ := scale_bounds size hden
  obtain ⟨_, hlow⟩ := scale_bounds size' hden
  generalize (size / den).log2 - 52 = scale at *
  generalize (size' / den).log2 - 52 = scale' at *
  have hpos (k : Nat) : 0 < den * 2 ^ k := Nat.mul_pos hden (Nat.two_pow_pos k)
  refine Nat.le_min.2 ⟨Nat.le_trans (Nat.min_le_left ..) ?_, Nat.min_le_right ..⟩
  rcases Nat.lt_or_eq_of_le hscales with hlt | rfl
  · have hle : roundTiesEven size (den * 2 ^ scale) ≤ 2 ^ (53 : Nat) :=
      roundTiesEven_le (hpos scale) hhigh
    have hge : 2 ^ (52 : Nat) ≤ roundTiesEven size' (den * 2 ^ scale') :=
      le_roundTiesEven (hpos scale') (hlow (by omega))
    omega
  · exact Nat.add_le_add_left (roundTiesEven_mono (hpos scale) hsizes) _

/-- A larger fraction has no smaller pattern. -/
theorem nearest_mono (hden : 0 < den) (hden' : 0 < den') (h : num * den' ≤ num' * den) :
    nearest num den ≤ nearest num' den' := by
  rw [← nearest_mul_mul num den hden', ← nearest_mul_mul num' den' hden, Nat.mul_comm den']
  exact nearest_mono_num (Nat.mul_pos hden hden') h

end

/-! ### Sizes -/

@[simp] theorem units_zero : units 0 = 0 := by simp [units]

/-- The size of a magnitude, from its digits and their scale. -/
theorem units_pattern {scale digits : Nat} (hle : digits ≤ 2 ^ (53 : Nat))
    (hform : 2 ^ (52 : Nat) ≤ digits ∨ scale = 0) :
    units (scale * 2 ^ (52 : Nat) + digits) = digits * 2 ^ scale := by
  rcases Nat.lt_or_eq_of_le hle with hlt | heq
  · rcases Nat.lt_or_ge digits (2 ^ (52 : Nat)) with hsmall | hge
    · rw [hform.resolve_left (by omega), Nat.zero_mul, Nat.zero_add, units, if_pos hsmall,
        Nat.pow_zero, Nat.mul_one]
    · have hmod : (scale * 2 ^ (52 : Nat) + digits) % 2 ^ (52 : Nat) =
          digits - 2 ^ (52 : Nat) := by
        omega
      have hdiv : (scale * 2 ^ (52 : Nat) + digits) / 2 ^ (52 : Nat) - 1 = scale := by omega
      rw [units, if_neg (by omega), hmod, hdiv, Nat.add_sub_cancel' hge]
  · have hmod : (scale * 2 ^ (52 : Nat) + digits) % 2 ^ (52 : Nat) = 0 := by omega
    have hdiv : (scale * 2 ^ (52 : Nat) + digits) / 2 ^ (52 : Nat) - 1 = scale + 1 := by omega
    rw [units, if_neg (by omega), hmod, hdiv, Nat.pow_succ, heq]
    omega

theorem units_le_units_iff {p q : Nat} (hp : p < infinity) (hq : q < infinity) :
    units p ≤ units q ↔ p ≤ q := by
  have hpos : 0 < 2 ^ fineness := Nat.two_pow_pos _
  have hback {p q : Nat} (hp : p < infinity) (hq : q < infinity) (h : units p ≤ units q) :
      p ≤ q := by
    rw [← nearest_units hp, ← nearest_units hq]
    exact nearest_mono_num hpos h
  refine ⟨hback hp hq, fun h => Nat.le_of_not_lt fun hlt => ?_⟩
  obtain rfl : p = q := Nat.le_antisymm h (hback hq hp (Nat.le_of_lt hlt))
  exact Nat.lt_irrefl _ hlt

/-- The magnitude found is off by half a unit at most where units are the last digit, and elsewhere
by the fraction over `2 ^ 53`. -/
theorem nearest_near {num den : Nat} (hden : 0 < den) (hfinite : nearest num den < infinity) :
    2 ^ (53 : Nat) * (units (nearest num den) * den) ≤
        (2 ^ (53 : Nat) + 1) * (num * 2 ^ fineness) + 2 ^ (52 : Nat) * den ∧
      2 ^ (53 : Nat) * (num * 2 ^ fineness) ≤
        2 ^ (53 : Nat) * (units (nearest num den) * den) + num * 2 ^ fineness +
          2 ^ (52 : Nat) * den := by
  obtain ⟨hhigh, hlow⟩ := scale_bounds (num * 2 ^ fineness) hden
  revert hfinite
  rw [nearest]
  generalize num * 2 ^ fineness = size at *
  generalize (size / den).log2 - 52 = scale at *
  intro hfinite
  have hpos : 0 < den * 2 ^ scale := Nat.mul_pos hden (Nat.two_pow_pos scale)
  have hle : roundTiesEven size (den * 2 ^ scale) ≤ 2 ^ (53 : Nat) := roundTiesEven_le hpos hhigh
  have hform : 2 ^ (52 : Nat) ≤ roundTiesEven size (den * 2 ^ scale) ∨ scale = 0 := by
    by_cases hzero : scale = 0
    · exact .inr hzero
    · exact .inl (le_roundTiesEven hpos (hlow hzero))
  obtain ⟨hnear, hnear'⟩ := roundTiesEven_near size hpos
  rw [Nat.min_eq_left (by omega), units_pattern hle hform, Nat.mul_assoc, Nat.mul_comm _ den]
  generalize roundTiesEven size (den * 2 ^ scale) * (den * 2 ^ scale) = found at *
  by_cases hzero : scale = 0
  · rw [hzero, Nat.pow_zero, Nat.mul_one] at hnear hnear'
    omega
  · have := hlow hzero
    omega

end Calculator.Numeral
