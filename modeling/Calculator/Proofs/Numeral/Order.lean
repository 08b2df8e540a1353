import Calculator.Proofs.Numeral.Parts

/-! The order of doubles. Main statement: numbers are ordered as their magnitudes with their signs
are, infinities included. -/

namespace Calculator.Numeral

open Float.Model (UnpackedFloat)
open Float.Model.UnpackedFloat

attribute [local instance] natPow

/-- Digits count for less than their scale. -/
theorem compare_scale_digits (p q : Nat) :
    (compare ((scale p : Int) - 1074) (scale q - 1074)).then (compare (digits p) (digits q)) =
      compare p q := by
  have hdigits (p : Nat) : p = scale p * 2 ^ (52 : Nat) + digits p ∧ digits p < 2 ^ (53 : Nat) := by
    rw [scale, digits]
    split_ifs <;> omega
  have hp := hdigits p
  have hq := hdigits q
  have hformp := digits_form p
  have hformq := digits_form q
  rcases Nat.lt_trichotomy (scale p) (scale q) with hlt | heq | hgt
  · rw [Int.compare_eq_lt.2 (by omega), Nat.compare_eq_lt.2 (show p < q by omega)]
    rfl
  · rw [Int.compare_eq_eq.2 (by omega), Ordering.eq_then]
    rcases Nat.lt_trichotomy (digits p) (digits q) with h | h | h
    · rw [Nat.compare_eq_lt.2 h, Nat.compare_eq_lt.2 (by omega)]
    · rw [Nat.compare_eq_eq.2 h, Nat.compare_eq_eq.2 (by omega)]
    · rw [Nat.compare_eq_gt.2 h, Nat.compare_eq_gt.2 (by omega)]
  · rw [Int.compare_eq_gt.2 (by omega), Nat.compare_eq_gt.2 (show q < p by omega)]
    rfl

theorem compare_natCast (p q : Nat) :
    compare (p : Int) q = compare p q ∧ compare (-(p : Int)) (-q) = (compare p q).swap := by
  rcases Nat.lt_trichotomy p q with h | h | h
  · rw [Nat.compare_eq_lt.2 h, Int.compare_eq_lt.2 (by omega), Int.compare_eq_gt.2 (by omega)]
    exact ⟨rfl, rfl⟩
  · rw [Nat.compare_eq_eq.2 h, Int.compare_eq_eq.2 (by omega), Int.compare_eq_eq.2 (by omega)]
    exact ⟨rfl, rfl⟩
  · rw [Nat.compare_eq_gt.2 h, Int.compare_eq_gt.2 (by omega), Int.compare_eq_lt.2 (by omega)]
    exact ⟨rfl, rfl⟩

theorem compare_finite (a b : Bool) {p q : Nat} (hp0 : p ≠ 0) (hp : p < infinity) (hq0 : q ≠ 0)
    (hq : q < infinity) :
    (unpacked a p).compare (unpacked b q) = some (compare (signed a p) (signed b q)) := by
  obtain ⟨hplus, hminus⟩ := compare_natCast p q
  rw [← compare_scale_digits p q] at hplus hminus
  rw [unpacked_of_lt a hp0 hp, unpacked_of_lt b hq0 hq]
  cases a with
  | false =>
    cases b with
    | false => exact congrArg some hplus.symm
    | true => exact congrArg some (Int.compare_eq_gt.2 (by simp [signed]; omega)).symm
  | true =>
    cases b with
    | false => exact congrArg some (Int.compare_eq_lt.2 (by simp [signed]; omega)).symm
    | true => exact congrArg some hminus.symm

theorem compare_infinity (a b : Bool) {p : Nat} (h : p < infinity) :
    (unpacked a p).compare (unpacked b infinity) =
        some (compare (signed a p) (signed b infinity)) ∧
      (unpacked b infinity).compare (unpacked a p) =
        some (compare (signed b infinity) (signed a p)) := by
  have hbetween : -(infinity : Int) < signed a p ∧ signed a p < infinity := by
    cases a <;> simp [signed] <;> omega
  have hshape : (∃ s, unpacked a p = .zero s) ∨ ∃ s m e hm, unpacked a p = .finite s m e hm := by
    by_cases hzero : p = 0
    · exact .inl ⟨_, hzero ▸ unpacked_zero a⟩
    · exact .inr ⟨_, _, _, _, unpacked_of_lt a hzero h⟩
  rw [unpacked_infinity]
  cases b with
  | false =>
    rw [show compare (signed a p) (signed false infinity) = .lt from
        Int.compare_eq_lt.2 hbetween.2,
      show compare (signed false infinity) (signed a p) = .gt from Int.compare_eq_gt.2 hbetween.2]
    rcases hshape with ⟨s, hs⟩ | ⟨s, m, e, hm, hs⟩ <;> rw [hs] <;> exact ⟨rfl, rfl⟩
  | true =>
    rw [show compare (signed a p) (signed true infinity) = .gt from
        Int.compare_eq_gt.2 hbetween.1,
      show compare (signed true infinity) (signed a p) = .lt from Int.compare_eq_lt.2 hbetween.1]
    rcases hshape with ⟨s, hs⟩ | ⟨s, m, e, hm, hs⟩ <;> rw [hs] <;> exact ⟨rfl, rfl⟩

theorem compare_zero (a b : Bool) {p : Nat} (hp0 : p ≠ 0) (h : p < infinity) :
    (unpacked a p).compare (unpacked b 0) = some (compare (signed a p) (signed b 0)) ∧
      (unpacked b 0).compare (unpacked a p) = some (compare (signed b 0) (signed a p)) := by
  have hzero : signed b 0 = 0 := by cases b <;> rfl
  rw [unpacked_of_lt a hp0 h, unpacked_zero, hzero]
  cases a with
  | false =>
    have hpos : 0 < signed false p := Int.natCast_pos.2 (Nat.pos_of_ne_zero hp0)
    rw [Int.compare_eq_gt.2 hpos, Int.compare_eq_lt.2 hpos]
    exact ⟨rfl, rfl⟩
  | true =>
    have hneg : signed true p < 0 := Int.neg_neg_of_pos (Int.natCast_pos.2 (Nat.pos_of_ne_zero hp0))
    rw [Int.compare_eq_gt.2 hneg, Int.compare_eq_lt.2 hneg]
    exact ⟨rfl, rfl⟩

/-- Numbers are compared by their magnitudes and their signs. -/
theorem compare_unpacked (a b : Bool) {p q : Nat} (hp : p ≤ infinity) (hq : q ≤ infinity) :
    (unpacked a p).compare (unpacked b q) = some (compare (signed a p) (signed b q)) := by
  rcases Nat.lt_or_eq_of_le hp with hp | rfl
  · rcases Nat.lt_or_eq_of_le hq with hq | rfl
    · by_cases hp0 : p = 0
      · by_cases hq0 : q = 0
        · rw [hp0, hq0, unpacked_zero, unpacked_zero]
          cases a <;> cases b <;> rfl
        · rw [hp0]
          exact (compare_zero b a hq0 hq).2
      · by_cases hq0 : q = 0
        · rw [hq0]
          exact (compare_zero a b hp0 hp).1
        · exact compare_finite a b hp0 hp hq0 hq
    · exact (compare_infinity a b hp).1
  · rcases Nat.lt_or_eq_of_le hq with hq | rfl
    · exact (compare_infinity b a hq).2
    · rw [unpacked_infinity, unpacked_infinity]
      cases a <;> cases b <;> decide

theorem compare_notNumber (a b : Bool) {p q : Nat} (h : ¬(p ≤ infinity ∧ q ≤ infinity)) :
    (unpacked a p).compare (unpacked b q) = none := by
  by_cases hp : p ≤ infinity
  · rw [unpacked_of_gt b (Nat.lt_of_not_le fun hq => h ⟨hp, hq⟩)]
    cases unpacked a p <;> rfl
  · rw [unpacked_of_gt a (Nat.lt_of_not_le hp)]
    rfl

section

variable {x y : Float} {a b : Bool} {p q : Nat}

theorem lt_iff_of_unpack (hx : x.toModel.unpack = unpacked a p)
    (hy : y.toModel.unpack = unpacked b q) :
    x < y ↔ (p ≤ infinity ∧ q ≤ infinity) ∧ signed a p < signed b q := by
  change decide (x.toModel < y.toModel) = true ↔ _
  rw [decide_eq_true_iff]
  change (x.toModel.unpack.compare y.toModel.unpack == some Ordering.lt) = true ↔ _
  rw [beq_iff_eq, hx, hy]
  by_cases h : p ≤ infinity ∧ q ≤ infinity
  · rw [compare_unpacked _ _ h.1 h.2, Option.some_inj, Int.compare_eq_lt]
    exact (and_iff_right h).symm
  · rw [compare_notNumber _ _ h]
    exact ⟨fun hlt => (nomatch hlt), fun hlt => absurd hlt.1 h⟩

theorem le_iff_of_unpack (hx : x.toModel.unpack = unpacked a p)
    (hy : y.toModel.unpack = unpacked b q) :
    x ≤ y ↔ (p ≤ infinity ∧ q ≤ infinity) ∧ signed a p ≤ signed b q := by
  change decide (x.toModel ≤ y.toModel) = true ↔ _
  rw [decide_eq_true_iff]
  change (x.toModel.unpack.compare y.toModel.unpack).any (·.isLE) = true ↔ _
  rw [hx, hy]
  by_cases h : p ≤ infinity ∧ q ≤ infinity
  · rw [compare_unpacked _ _ h.1 h.2, Option.any_some, Int.isLE_compare]
    exact (and_iff_right h).symm
  · rw [compare_notNumber _ _ h]
    exact ⟨fun hle => (nomatch hle), fun hle => absurd hle.1 h⟩

theorem unpack_abs (x : Float) : x.abs.toModel.unpack = unpacked false (magnitude x) := by
  rw [abs_eq, unpack_ofMagnitude false (magnitude_lt x)]

theorem unpack_zero : (0 : Float).toModel.unpack = unpacked false 0 := by
  rw [← ofMagnitude_zero, unpack_ofMagnitude false (Nat.two_pow_pos 63)]

theorem lt_zero_iff : x < 0 ↔ isNegative x = true ∧ magnitude x ≠ 0 ∧ magnitude x ≤ infinity := by
  rw [lt_iff_of_unpack (unpack_toModel x) unpack_zero, signed_zero]
  cases isNegative x with
  | false => simp [signed]
  | true =>
    simp only [signed, if_true, true_and]
    omega

theorem not_zero_le_of_lt_zero (h : x < 0) : ¬0 ≤ x := by
  obtain ⟨hx, hlt⟩ := (lt_iff_of_unpack (unpack_toModel x) unpack_zero).1 h
  intro hle
  exact Int.not_le.2 hlt ((le_iff_of_unpack unpack_zero (unpack_toModel x)).1 hle).2

/-- Only a positive number is greater than a size. -/
theorem abs_lt_iff : x.abs < y ↔
    isNegative y = false ∧ magnitude x < magnitude y ∧ magnitude y ≤ infinity := by
  rw [lt_iff_of_unpack (unpack_abs x) (unpack_toModel y)]
  cases isNegative y with
  | false =>
    simp only [signed, Bool.false_eq_true, if_false, true_and]
    omega
  | true => simp [signed]

theorem zero_lt_iff : 0 < x ↔ isNegative x = false ∧ magnitude x ≠ 0 ∧ magnitude x ≤ infinity := by
  rw [lt_iff_of_unpack unpack_zero (unpack_toModel x), signed_zero]
  cases isNegative x with
  | false =>
    simp only [signed, Bool.false_eq_true, if_false, true_and]
    omega
  | true => simp [signed]

theorem zero_lt_of_abs_lt (h : x.abs < y) : 0 < y := by
  obtain ⟨hsign, hlt, hle⟩ := abs_lt_iff.1 h
  exact zero_lt_iff.2 ⟨hsign, Nat.ne_zero_of_lt hlt, hle⟩

end

end Calculator.Numeral
