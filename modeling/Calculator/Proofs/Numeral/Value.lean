import Calculator.Proofs.Numeral.Order
import Calculator.Proofs.Numeral.Products
import Calculator.Proofs.Numeral.Sums

/-! Doubles as rational numbers. Main statements: each operation rounds the exact result to the
nearest double, which is close to it, and never farther from zero than a double that the exact result
does not pass. -/

namespace Calculator.Numeral

attribute [local instance] natPow

/-- The finest double above zero. -/
def finest : ℚ := 1 / 2 ^ fineness

/-- The number that a finite double stands for. -/
def value (x : Float) : ℚ := signed (isNegative x) (units (magnitude x)) * finest

/-- The double is the one nearest to the number. -/
def Rounds (r : ℚ) (y : Float) : Prop :=
  ∃ (c : Bool) (n d : Nat), 0 < d ∧ r = signed c n / d ∧ y = ofMagnitude c (nearest n d)

/-- What is found is off by a part in `2 ^ 53` and half of the finest double at most. -/
def Close (exact found : ℚ) : Prop :=
  |found - exact| ≤ |exact| / 2 ^ (53 : Nat) + finest / 2

theorem Close.neg {exact found : ℚ} (h : Close exact found) : Close (-exact) (-found) := by
  rw [Close, neg_sub_neg, abs_sub_comm, abs_neg]
  exact h

theorem finest_pos : 0 < finest := one_div_pos.2 (pow_pos two_pos _)

theorem two_pow_mul_finest : 2 ^ fineness * finest = 1 :=
  mul_one_div_cancel (pow_ne_zero _ two_ne_zero)

theorem cast_signed (c : Bool) (n : Nat) : (signed c n : ℚ) = (if c then -1 else 1) * n := by
  cases c <;> simp [signed]

theorem abs_signed (c : Bool) (n : Nat) : |(signed c n : ℚ)| = n := by
  cases c <;> simp [signed]

theorem signed_not (c : Bool) (n : Nat) : signed (!c) n = -signed c n := by
  cases c <;> simp [signed]

theorem signed_mul_signed (a b : Bool) (m n : Nat) :
    signed a m * signed b n = signed (a != b) (m * n) := by
  cases a <;> cases b <;> simp [signed]

/-- What the sizes say of fractions and of doubles is the same. -/
theorem div_le_units_iff {n d u : Nat} (hd : 0 < d) :
    (n : ℚ) / d ≤ u * finest ↔ n * 2 ^ fineness ≤ u * d := by
  rw [finest, mul_one_div, div_le_div_iff₀ (Nat.cast_pos.2 hd) (pow_pos two_pos _),
    ← Nat.cast_le (α := ℚ), Nat.cast_mul, Nat.cast_mul, Nat.cast_pow, Nat.cast_ofNat]

theorem units_le_div_iff {n d u : Nat} (hd : 0 < d) :
    u * finest ≤ (n : ℚ) / d ↔ u * d ≤ n * 2 ^ fineness := by
  rw [finest, mul_one_div, div_le_div_iff₀ (pow_pos two_pos _) (Nat.cast_pos.2 hd),
    ← Nat.cast_le (α := ℚ), Nat.cast_mul, Nat.cast_mul, Nat.cast_pow, Nat.cast_ofNat]

section

variable {x y z : Float} {r : ℚ}

theorem abs_value (x : Float) : |value x| = units (magnitude x) * finest := by
  rw [value, abs_mul, abs_signed, abs_of_pos finest_pos]

theorem abs_value_le_iff (hx : x.isFinite) (hy : y.isFinite) :
    |value x| ≤ |value y| ↔ magnitude x ≤ magnitude y := by
  rw [abs_value, abs_value, mul_le_mul_iff_left₀ finest_pos, Nat.cast_le,
    units_le_units_iff ((isFinite_iff x).1 hx) ((isFinite_iff y).1 hy)]

theorem finest_le_abs_value (h : magnitude x ≠ 0) : finest ≤ |value x| := by
  rw [abs_value]
  exact le_mul_of_one_le_left finest_pos.le (Nat.one_le_cast.2 (units_pos h))

theorem value_ne_zero (h : magnitude x ≠ 0) : value x ≠ 0 :=
  abs_pos.1 (finest_pos.trans_le (finest_le_abs_value h))

theorem value_nonneg (h : isNegative x = false) : 0 ≤ value x := by
  rw [value, h]
  exact mul_nonneg (by simp [signed]) finest_pos.le

theorem value_nonpos (h : isNegative x = true) : value x ≤ 0 := by
  rw [value, h]
  exact mul_nonpos_of_nonpos_of_nonneg (by simp [signed]) finest_pos.le

theorem finest_le_value (h : 0 < x) : finest ≤ value x := by
  obtain ⟨hsign, hne, _⟩ := zero_lt_iff.1 h
  rw [← abs_of_nonneg (value_nonneg hsign)]
  exact finest_le_abs_value hne

/-! ### Rounding -/

theorem magnitude_nearest (c : Bool) (n d : Nat) :
    magnitude (ofMagnitude c (nearest n d)) = nearest n d :=
  magnitude_ofMagnitude c (nearest_le_infinity n d)

theorem value_nearest (c : Bool) (n d : Nat) :
    value (ofMagnitude c (nearest n d)) =
      (if c then -1 else 1) * (units (nearest n d) * finest) := by
  rw [value, isNegative_ofMagnitude c (nearest_le_infinity n d), magnitude_nearest, cast_signed,
    mul_assoc]

theorem Rounds.close (h : Rounds r y) (hy : y.isFinite) : Close r (value y) := by
  obtain ⟨c, n, d, hd, rfl, rfl⟩ := h
  rw [isFinite_iff, magnitude_nearest] at hy
  obtain ⟨hhigh, hlow⟩ := nearest_near hd hy
  have hd' : (0 : ℚ) < d := Nat.cast_pos.2 hd
  have hn : (n : ℚ) = n / d * d := (div_mul_cancel₀ _ hd'.ne').symm
  have hunits := two_pow_mul_finest
  have hsign : |(if c then -1 else 1 : ℚ)| = 1 := by cases c <;> simp
  rw [Close, value_nearest, cast_signed, mul_div_assoc, ← mul_sub, abs_mul, abs_mul, hsign, one_mul,
    one_mul, abs_of_nonneg (div_nonneg n.cast_nonneg hd'.le)]
  generalize (n : ℚ) / d = exact at hn ⊢
  generalize units (nearest n d) = found at hhigh hlow ⊢
  rw [← Nat.cast_le (α := ℚ)] at hhigh hlow
  push_cast at hhigh hlow
  have habove : 2 ^ (53 : Nat) * (found * finest) ≤
      (2 ^ (53 : Nat) + 1) * exact + 2 ^ (52 : Nat) * finest := by
    refine le_of_mul_le_mul_right ?_ hd'
    have hle := mul_le_mul_of_nonneg_right hhigh finest_pos.le
    linear_combination hle + (2 ^ (53 : Nat) + 1) * n * hunits + (2 ^ (53 : Nat) + 1) * hn
  have hbelow : 2 ^ (53 : Nat) * exact ≤
      2 ^ (53 : Nat) * (found * finest) + exact + 2 ^ (52 : Nat) * finest := by
    refine le_of_mul_le_mul_right ?_ hd'
    have hle := mul_le_mul_of_nonneg_right hlow finest_pos.le
    linear_combination hle - (2 ^ (53 : Nat) - 1) * n * hunits - (2 ^ (53 : Nat) - 1) * hn
  rw [abs_sub_le_iff]
  constructor <;> linarith

/-- Rounding does not go past a double. -/
theorem Rounds.abs_le (h : Rounds r y) (hz : z.isFinite) (hle : |r| ≤ |value z|) :
    y.isFinite ∧ |value y| ≤ |value z| := by
  obtain ⟨c, n, d, hd, rfl, rfl⟩ := h
  rw [isFinite_iff] at hz
  rw [abs_div, abs_signed, Nat.abs_cast, abs_value, div_le_units_iff hd] at hle
  have hnearest : nearest n d ≤ magnitude z := by
    rw [← nearest_units hz]
    exact nearest_mono hd (Nat.two_pow_pos _) hle
  have hy : (ofMagnitude c (nearest n d)).isFinite := by
    rw [isFinite_iff, magnitude_nearest]
    exact Nat.lt_of_le_of_lt hnearest hz
  refine ⟨hy, ?_⟩
  rwa [abs_value_le_iff hy ((isFinite_iff z).2 hz), magnitude_nearest]

/-- A double is not changed by rounding. -/
theorem Rounds.value_eq (h : Rounds (value x) y) (hx : x.isFinite) :
    y.isFinite ∧ value y = value x := by
  obtain ⟨c, n, d, hd, hvalue, rfl⟩ := h
  rw [isFinite_iff] at hx
  have hsize : (n : ℚ) / d = units (magnitude x) * finest := by
    rw [← abs_value, hvalue, abs_div, abs_signed, Nat.abs_cast]
  have hnearest : nearest n d = magnitude x := by
    rw [← nearest_units hx]
    exact nearest_congr hd (Nat.two_pow_pos _) (Nat.le_antisymm ((div_le_units_iff hd).1 hsize.le)
      ((units_le_div_iff hd).1 hsize.ge))
  constructor
  · rwa [isFinite_iff, magnitude_nearest, hnearest]
  · rw [value_nearest, hnearest, ← hsize, hvalue, cast_signed, mul_div_assoc]

/-! ### Operations -/

theorem rounds_mul (hx : x.isFinite) (hy : y.isFinite) : Rounds (value x * value y) (x * y) := by
  rw [isFinite_iff] at hx hy
  rw [mul_eq, product, if_neg (by omega), if_neg (by omega), if_neg (by omega)]
  refine ⟨_, _, _, Nat.two_pow_pos _, ?_, rfl⟩
  rw [← signed_mul_signed, value, value, finest, Nat.cast_pow, pow_add, Nat.cast_ofNat]
  push_cast
  field_simp

theorem isFinite_of_mul (h : (x * y).isFinite) : x.isFinite ∧ y.isFinite := by
  rw [mul_eq, isFinite_ofMagnitude _ (product_lt _ _), decide_eq_true_iff] at h
  rw [isFinite_iff, isFinite_iff]
  exact lt_of_product_lt h

theorem rounds_div (hx : x.isFinite) (hy : y.isFinite) (hne : magnitude y ≠ 0) :
    Rounds (value x / value y) (x / y) := by
  rw [isFinite_iff] at hx hy
  have hpos := units_pos hne
  rw [div_eq, quotient, if_neg (by omega), if_neg (by omega), if_neg (by omega), if_neg hne]
  refine ⟨_, _, _, hpos, ?_, rfl⟩
  rw [value, value, mul_div_mul_right _ _ finest_pos.ne', cast_signed, cast_signed, cast_signed]
  cases isNegative x <;> cases isNegative y <;> simp [neg_div, div_neg]

theorem isFinite_of_div (h : (x / y).isFinite) :
    x.isFinite ∧ magnitude y ≤ infinity ∧ magnitude y ≠ 0 := by
  rw [div_eq, isFinite_ofMagnitude _ (quotient_lt _ _), decide_eq_true_iff] at h
  rw [isFinite_iff]
  exact lt_of_quotient_lt h

theorem rounds_add (hx : x.isFinite) (hy : y.isFinite) : Rounds (value x + value y) (x + y) := by
  rw [isFinite_iff] at hx hy
  obtain ⟨c, n, hsum, hadd⟩ := add_eq hx hy
  refine ⟨c, n, _, Nat.two_pow_pos _, ?_, hadd⟩
  rw [hsum, Int.cast_add, add_div, Nat.cast_pow, Nat.cast_ofNat, value, value, finest, mul_one_div,
    mul_one_div]

theorem value_neg (hx : x.isFinite) : (-x).isFinite ∧ value (-x) = -value x := by
  rw [isFinite_iff] at hx ⊢
  rw [neg_eq, value, isNegative_ofMagnitude _ hx.le, magnitude_ofMagnitude _ hx.le, signed_not,
    Int.cast_neg, neg_mul]
  exact ⟨hx, rfl⟩

theorem rounds_sub (hx : x.isFinite) (hy : y.isFinite) : Rounds (value x - value y) (x - y) := by
  obtain ⟨hneg, hvalue⟩ := value_neg hy
  have hsub : value x - value y = value x + value (-y) := by rw [hvalue, sub_eq_add_neg]
  rw [sub_eq, hsub]
  exact rounds_add hx hneg

theorem rounds_ofNat (n : Nat) : Rounds n (ofNat n) :=
  ⟨false, n, 1, Nat.one_pos, by simp [signed], rfl⟩

theorem exists_units {n : Nat} (k : Nat) (hn : n ≤ 2 ^ (53 : Nat)) (hk : k ≤ 2044) :
    ∃ p < infinity, units p = n * 2 ^ k := by
  have hinfinity : infinity = 2047 * 2 ^ (52 : Nat) := rfl
  induction k generalizing n with
  | zero =>
    refine ⟨0 * 2 ^ (52 : Nat) + n, by omega, ?_⟩
    exact units_pattern hn (.inr rfl)
  | succ k ih =>
    rcases Nat.lt_or_ge n (2 ^ (52 : Nat)) with hlt | hge
    · obtain ⟨p, hp, hunits⟩ := ih (n := n * 2) (by omega) (by omega)
      exact ⟨p, hp, by rw [hunits, Nat.pow_succ', Nat.mul_assoc]⟩
    · exact ⟨(k + 1) * 2 ^ (52 : Nat) + n, by omega, units_pattern hn (.inl hge)⟩

/-- Whole numbers of 53 binary digits are doubles, to any power of two in range. -/
theorem exists_value {n k : Nat} (hn : n ≤ 2 ^ (53 : Nat)) (hk : k ≤ 2044) :
    ∃ x : Float, x.isFinite ∧ value x = n * 2 ^ k * finest := by
  obtain ⟨p, hp, hunits⟩ := exists_units k hn hk
  refine ⟨ofMagnitude false p, ?_, ?_⟩
  · rwa [isFinite_iff, magnitude_ofMagnitude false hp.le]
  · rw [value, isNegative_ofMagnitude false hp.le, magnitude_ofMagnitude false hp.le, hunits]
    simp [signed]

/-- Such numbers are not changed by rounding. -/
theorem Rounds.exact {n k : Nat} (h : Rounds r y) (hr : r = n * 2 ^ k * finest)
    (hn : n ≤ 2 ^ (53 : Nat)) (hk : k ≤ 2044) : y.isFinite ∧ value y = r := by
  obtain ⟨x, hx, hvalue⟩ := exists_value hn hk
  rw [← hvalue] at hr
  subst hr
  exact h.value_eq hx

theorem Rounds.natCast {n : Nat} (h : Rounds n y) (hn : n ≤ 2 ^ (53 : Nat)) :
    y.isFinite ∧ value y = n :=
  h.exact (k := fineness) (by rw [mul_assoc, two_pow_mul_finest, mul_one]) hn (by decide)

theorem value_ofNat {n : Nat} (h : n ≤ 2 ^ (53 : Nat)) :
    (ofNat n).isFinite ∧ value (ofNat n) = n :=
  (rounds_ofNat n).natCast h

theorem value_one : (1 : Float).isFinite ∧ value 1 = 1 := by
  have hone : (1 : Float) = ofNat 1 := by decide +kernel
  rw [hone, ← Nat.cast_one (R := ℚ)]
  exact value_ofNat (by decide)

theorem value_ofNat_sub_one {n : Nat} (hn : 1 ≤ n) (hle : n ≤ 2 ^ (53 : Nat)) :
    (ofNat n - 1).isFinite ∧ value (ofNat n - 1) = n - 1 := by
  obtain ⟨hfinite, hvalue⟩ := value_ofNat hle
  obtain ⟨hfinite', hvalue'⟩ := value_one
  have hrounds := rounds_sub hfinite hfinite'
  rw [hvalue, hvalue', ← Nat.cast_one (R := ℚ), ← Nat.cast_sub hn] at hrounds
  rw [← Nat.cast_one (R := ℚ), ← Nat.cast_sub hn]
  exact hrounds.natCast (by omega)

/-- The powers of a half are doubles down to the finest. -/
theorem value_half_pow {m : Nat} (hm : m ≤ fineness) :
    (ofMagnitude false (nearest 1 (2 ^ m))).isFinite ∧
      value (ofMagnitude false (nearest 1 (2 ^ m))) = (1 / 2) ^ m := by
  have hfineness : fineness = 1074 := rfl
  have hrounds : Rounds ((1 / 2) ^ m) (ofMagnitude false (nearest 1 (2 ^ m))) :=
    ⟨false, 1, 2 ^ m, Nat.two_pow_pos m, by simp [signed], rfl⟩
  refine hrounds.exact (n := 1) (k := fineness - m) ?_ (by decide) (by omega)
  rw [finest, Nat.cast_one, one_mul, mul_one_div, pow_sub₀ _ two_ne_zero hm, one_div_pow]
  field_simp

/-- Doubles that differ by less than a double are not much farther from each other. -/
theorem abs_sub_le_of_near {y τ : Float} (hx : x.isFinite) (hy : y.isFinite) (hτ : τ.isFinite)
    (h : (y - x).abs < τ) : |value y - value x| ≤ 8 / 5 * value τ := by
  have hfinest := finest_le_value (zero_lt_of_abs_lt h)
  obtain ⟨hsign, hlt, _⟩ := abs_lt_iff.1 h
  have hfinite : (y - x).isFinite := (isFinite_iff _).2 (hlt.trans ((isFinite_iff τ).1 hτ))
  have hle : |value (y - x)| ≤ value τ := by
    rw [← abs_of_nonneg (value_nonneg hsign), abs_value_le_iff hfinite hτ]
    exact hlt.le
  have hclose := (rounds_sub hy hx).close hfinite
  rw [Close, abs_sub_comm] at hclose
  have htriangle := abs_sub_abs_le_abs_sub (value y - value x) (value (y - x))
  have hpos := finest_pos
  linarith

end

end Calculator.Numeral
