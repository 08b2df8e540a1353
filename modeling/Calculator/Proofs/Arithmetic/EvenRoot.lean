import Calculator.Arithmetic.Root
import Calculator.Proofs.Arithmetic.PowerSize

/-! Even roots of negative numbers. A step of the search starts on one side of zero and takes in a
number from the other side, so it goes far unless both are small; but what is divided by a power of
a small guess is not. Main statement: such a root is a number only if the search ends, and that it
does not for a tolerance that is fine enough. -/

namespace Calculator

open Numeral

attribute [local instance] natPow

/-! ### One step, in numbers -/

/-- A step from `G` to `N` as it is rounded. It takes in `U`; on the way are the product `T` and the
sum `S`. -/
structure RoundedStep (n G U T S N : ℚ) : Prop where
  product : Close ((n - 1) * G) T
  sum : Close (T + U) S
  quotient : Close (S / n) N

section

variable {n G U T S N : ℚ}

namespace RoundedStep

theorem neg (h : RoundedStep n G U T S N) : RoundedStep n (-G) (-U) (-T) (-S) (-N) where
  product := by
    rw [mul_neg]
    exact h.product.neg
  sum := by
    rw [← neg_add]
    exact h.sum.neg
  quotient := by
    rw [neg_div]
    exact h.quotient.neg

theorem le_mul_sub (h : RoundedStep n G U T S N) (hn : 2 ≤ n) (hdegree : n ≤ 2 ^ (47 : Nat))
    (hG : 0 ≤ G) (hU : U ≤ 0) : 7 / 8 * (G - U) ≤ n * (G - N) + 3 / 2 * (n * finest) := by
  obtain ⟨hT, hS, hN⟩ := h
  have hn0 : 0 < n := by linarith
  have hkG : 0 ≤ (n - 1) * G := mul_nonneg (by linarith) hG
  have hkG' : (n - 1) * G ≤ 2 ^ (47 : Nat) * G := mul_le_mul_of_nonneg_right (by linarith) hG
  have hpos := finest_pos
  have hnf : 2 * finest ≤ n * finest := mul_le_mul_of_nonneg_right hn hpos.le
  have hN' : |n * N - S| ≤ |S| / 2 ^ (53 : Nat) + n * finest / 2 := by
    have hscaled := mul_le_mul_of_nonneg_left hN hn0.le
    rw [← abs_of_pos hn0, ← abs_mul, abs_of_pos hn0, mul_sub, mul_div_cancel₀ _ hn0.ne', abs_div,
      abs_of_pos hn0] at hscaled
    calc |n * N - S|
      _ ≤ n * (|S| / n / 2 ^ (53 : Nat) + finest / 2) := hscaled
      _ = |S| / 2 ^ (53 : Nat) + n * finest / 2 := by field_simp
  -- what is left is linear in the products
  rw [Close, abs_of_nonneg hkG] at hT
  rw [Close] at hS
  rw [show n * (G - N) = (n - 1) * G + G - n * N by ring]
  generalize (n - 1) * G = kG at *
  generalize n * finest = nf at *
  generalize n * N = nN at *
  obtain ⟨hTlow, hThigh⟩ := abs_le.1 hT
  have hTU : |T + U| ≤ 2 * kG - U + finest := abs_le.2 ⟨by linarith, by linarith⟩
  obtain ⟨hSlow, hShigh⟩ := abs_le.1 hS
  have hS' : |S| ≤ 4 * kG - 2 * U + 3 * finest := abs_le.2 ⟨by linarith, by linarith⟩
  have hnN := (abs_le.1 hN').2
  linarith

/-- From one side of zero, with something taken in from the other side, a step goes far. -/
theorem le_mul_abs_sub (h : RoundedStep n G U T S N) (hn : 2 ≤ n) (hdegree : n ≤ 2 ^ (47 : Nat))
    (hopposed : G * U ≤ 0) :
    7 / 8 * (|G| + |U|) ≤ n * |N - G| + 3 / 2 * (n * finest) := by
  have hn0 : 0 ≤ n := by linarith
  rcases mul_nonpos_iff.1 hopposed with ⟨hG, hU⟩ | ⟨hG, hU⟩
  · have hstep := h.le_mul_sub hn hdegree hG hU
    have hle : n * (G - N) ≤ n * |N - G| := by
      rw [abs_sub_comm]
      exact mul_le_mul_of_nonneg_left (le_abs_self _) hn0
    rw [abs_of_nonneg hG, abs_of_nonpos hU]
    linarith
  · have hstep := h.neg.le_mul_sub hn hdegree (neg_nonneg.2 hG) (neg_nonpos.2 hU)
    have hle : n * (-G - -N) ≤ n * |N - G| := by
      rw [neg_sub_neg]
      exact mul_le_mul_of_nonneg_left (le_abs_self _) hn0
    rw [abs_of_nonpos hG, abs_of_nonneg hU]
    linarith

end RoundedStep

theorem exists_half_pow {t : ℚ} (ht : t ≤ 1) (hG : |G| < t / 2) :
    ∃ j, 1 ≤ j ∧ |G| ≤ (1 / 2) ^ j ∧ ((1 / 2) ^ j < t ∨ j = fineness) := by
  rcases le_or_gt |G| ((1 / 2) ^ fineness) with hle | hgt
  · exact ⟨fineness, by decide, hle, .inr rfl⟩
  · have hpos : 0 < |G| := lt_trans (by positivity) hgt
    obtain ⟨j, hlow, hhigh⟩ := exists_nat_pow_near_of_lt_one hpos (by linarith : |G| ≤ 1)
      (by norm_num : (0 : ℚ) < 1 / 2) (by norm_num)
    rw [pow_succ] at hlow
    refine ⟨j, Nat.one_le_iff_ne_zero.2 ?_, hhigh, .inl (by linarith)⟩
    rintro rfl
    rw [pow_zero] at hlow
    linarith

theorem mul_half_pow_le {t A : ℚ} {n j : ℕ} (hn : 2 ≤ n) (ht0 : 0 < t) (ht : t ≤ 1)
    (hA : t ^ n ≤ A) (hfinest : finest ≤ A) (hj : (1 / 2) ^ j < t ∨ j = fineness) :
    t * (1 / 2) ^ min (j * (n - 1)) fineness ≤ A := by
  have hcoarse (h : fineness ≤ j * (n - 1)) :
      t * (1 / 2) ^ min (j * (n - 1)) fineness ≤ A := by
    rw [Nat.min_eq_right h]
    calc t * (1 / 2) ^ fineness
      _ ≤ 1 * (1 / 2) ^ fineness := mul_le_mul_of_nonneg_right ht (by positivity)
      _ = finest := by rw [one_mul, finest, one_div_pow]
      _ ≤ A := hfinest
  rcases hj with hj | rfl
  · rcases Nat.le_total fineness (j * (n - 1)) with hle | hle
    · exact hcoarse hle
    · rw [Nat.min_eq_left hle]
      calc t * (1 / 2) ^ (j * (n - 1))
        _ = t * ((1 / 2) ^ j) ^ (n - 1) := by rw [pow_mul]
        _ ≤ t * t ^ (n - 1) := by gcongr
        _ = t ^ n := by rw [← pow_succ', Nat.sub_add_cancel (by omega)]
        _ ≤ A := hA
  · exact hcoarse (Nat.le_mul_of_pos_right _ (by omega))

end

/-! ### One step, in doubles -/

/-- The tolerance is fine enough to tell a root of that degree from zero: a guess of eight times
its size for each degree has a power no larger than the number. -/
structure Settings.Resolves (settings : Settings) (x : Float) (n : Nat) : Prop where
  degree : n ≤ 2 ^ (47 : Nat)
  finite : 0 < settings.rootTolerance → settings.rootTolerance.isFinite
  fine : 0 < settings.rootTolerance →
    (8 * n * value settings.rootTolerance) ^ n ≤ min 1 |value x|

section

variable {x guess : Float} {n : Nat}

/-- What a step takes in lies on the other side of zero. -/
theorem value_mul_value_div_nonpos (hx : isNegative x = true) (hguess : guess.isFinite)
    (heven : n % 2 = 0) (hn : 2 ≤ n) (hpow : PowersArePlain (n - 1))
    (hfinite : (x / repeatedProduct guess (n - 1)).isFinite) :
    value guess * value (x / repeatedProduct guess (n - 1)) ≤ 0 := by
  obtain ⟨p, hp, hproduct⟩ := exists_repeatedProduct_of_odd hguess (by omega) hpow
  have hdiv := div_ofMagnitude (isNegative x) (isNegative guess) (magnitude_lt x) hp
  rw [ofMagnitude_magnitude, ← hproduct, hx] at hdiv
  rw [hdiv, isFinite_ofMagnitude _ (quotient_lt _ _), decide_eq_true_iff] at hfinite
  rw [hdiv]
  have hsign := isNegative_ofMagnitude (true != isNegative guess) hfinite.le
  cases hguess : isNegative guess with
  | false =>
    rw [hguess] at hsign
    exact mul_nonpos_of_nonneg_of_nonpos (value_nonneg hguess) (value_nonpos hsign)
  | true =>
    rw [hguess] at hsign
    exact mul_nonpos_of_nonpos_of_nonneg (value_nonpos hguess) (value_nonneg hsign)

/-- The parts of a finite step are finite, and rounded. -/
theorem roundedStep_newtonStep (hn : 2 ≤ n) (hdegree : n ≤ 2 ^ (47 : Nat))
    (hstep : (newtonStep x n guess).isFinite) :
    guess.isFinite ∧ (x / repeatedProduct guess (n - 1)).isFinite ∧
      ∃ T S, RoundedStep n (value guess) (value (x / repeatedProduct guess (n - 1))) T S
        (value (newtonStep x n guess)) := by
  obtain ⟨hsum, _, hne⟩ := isFinite_of_div hstep
  obtain ⟨hproduct, hquotient⟩ := isFinite_of_add hsum
  obtain ⟨hpred, hguess⟩ := isFinite_of_mul hproduct
  obtain ⟨hfinite, hvalue⟩ := value_ofNat (n := n) (hdegree.trans (by decide))
  obtain ⟨_, hvalue'⟩ := value_ofNat_sub_one (n := n) (by omega) (hdegree.trans (by decide))
  have hT := (rounds_mul hpred hguess).close hproduct
  have hN := (rounds_div hsum hfinite hne).close hstep
  rw [hvalue'] at hT
  rw [hvalue] at hN
  exact ⟨hguess, hquotient, _, _, hT, (rounds_add hproduct hquotient).close hsum, hN⟩

/-- A step shorter than a tolerance neither starts far from zero nor takes in much. -/
theorem abs_add_abs_lt_of_near {τ : Float} (hx : isNegative x = true) (heven : n % 2 = 0)
    (hn : 2 ≤ n) (hdegree : n ≤ 2 ^ (47 : Nat)) (hpow : PowersArePlain (n - 1))
    (hstep : (newtonStep x n guess).isFinite) (hτ : τ.isFinite)
    (hlt : (newtonStep x n guess - guess).abs < τ) :
    |value guess| + |value (x / repeatedProduct guess (n - 1))| < 4 * (n * value τ) := by
  obtain ⟨hguess, hquotient, T, S, hrounded⟩ := roundedStep_newtonStep hn hdegree hstep
  have hn' : (2 : ℚ) ≤ n := by exact_mod_cast hn
  have hfar := hrounded.le_mul_abs_sub hn' (by exact_mod_cast hdegree)
    (value_mul_value_div_nonpos hx hguess heven hn hpow hquotient)
  have hnear : n * |value (newtonStep x n guess) - value guess| ≤ n * (8 / 5 * value τ) :=
    mul_le_mul_of_nonneg_left (abs_sub_le_of_near hguess hstep hτ hlt) (by linarith)
  have hfinest : n * finest ≤ n * value τ :=
    mul_le_mul_of_nonneg_left (finest_le_value (zero_lt_of_abs_lt hlt)) (by linarith)
  have hpos : 0 < n * finest := mul_pos (by linarith) finest_pos
  linarith

/-- What a step takes in is no less than the other numbers allow. -/
theorem le_abs_value_div {t : ℚ} (hx : magnitude x ≠ 0) (hfinite : x.isFinite) (hn : 2 ≤ n)
    (ht : 16 * finest ≤ t) (ht1 : t ≤ 1) (hfine : t ^ n ≤ |value x|) (hguess : guess.isFinite)
    (hsmall : |value guess| < t / 2) (hquotient : (x / repeatedProduct guess (n - 1)).isFinite) :
    t / 2 ≤ |value (x / repeatedProduct guess (n - 1))| := by
  have hpos := finest_pos
  obtain ⟨j, hj, hle, hcase⟩ := exists_half_pow ht1 hsmall
  obtain ⟨hpower, hpowerle⟩ := abs_value_repeatedProduct_le hguess hj hle (n - 1)
  have hne := (isFinite_of_div hquotient).2.2
  have hclose := (rounds_div hfinite hpower hne).close hquotient
  have hexact : t ≤ |value x / value (repeatedProduct guess (n - 1))| := by
    rw [abs_div, le_div_iff₀ (abs_pos.2 (value_ne_zero hne))]
    calc t * |value (repeatedProduct guess (n - 1))|
      _ ≤ t * (1 / 2) ^ min (j * (n - 1)) fineness :=
        mul_le_mul_of_nonneg_left hpowerle (by linarith)
      _ ≤ |value x| :=
        mul_half_pow_le hn (by linarith) ht1 hfine (finest_le_abs_value hx) hcase
  rw [Close, abs_sub_comm] at hclose
  have htriangle := abs_sub_abs_le_abs_sub (value x / value (repeatedProduct guess (n - 1)))
    (value (x / repeatedProduct guess (n - 1)))
  linarith

/-- No step is shorter than a tolerance that is fine enough. -/
theorem not_abs_sub_lt {settings : Settings} (hx : x < 0) (hfinite : x.isFinite)
    (heven : n % 2 = 0) (hn : 2 ≤ n) (hpow : PowersArePlain (n - 1)) (h : settings.Resolves x n)
    (hstep : (newtonStep x n guess).isFinite) :
    ¬(newtonStep x n guess - guess).abs < settings.rootTolerance := by
  intro hlt
  obtain ⟨hsign, hne, _⟩ := lt_zero_iff.1 hx
  have hτ := zero_lt_of_abs_lt hlt
  obtain ⟨hguess, hquotient, _⟩ := roundedStep_newtonStep hn h.degree hstep
  have hsum := abs_add_abs_lt_of_near hsign heven hn h.degree hpow hstep (h.finite hτ) hlt
  have hfine := h.fine hτ
  have hn' : (2 : ℚ) ≤ n := by exact_mod_cast hn
  have hfinest : 2 * finest ≤ n * value settings.rootTolerance :=
    mul_le_mul hn' (finest_le_value hτ) finest_pos.le (by linarith)
  rw [mul_assoc] at hfine
  generalize n * value settings.rootTolerance = T at *
  have hpos := finest_pos
  have ht1 : 8 * T ≤ 1 := by
    by_contra hgt
    exact absurd (hfine.trans (min_le_left _ _))
      (not_le.2 (one_lt_pow₀ (not_le.1 hgt) (by omega)))
  have habs := abs_nonneg (value guess)
  have habs' := abs_nonneg (value (x / repeatedProduct guess (n - 1)))
  have hle := le_abs_value_div hne hfinite hn (t := 8 * T) (by linarith) ht1
    (hfine.trans (min_le_right _ _)) hguess (by linarith) hquotient
  linarith

end

/-! ### The search -/

/-- What is found is finite. -/
theorem isFinite_of_newton {x r τ : Float} {n steps : Nat} {guess : Float}
    (h : newton x n τ steps guess = some r) : r.isFinite := by
  induction steps generalizing guess with
  | zero => cases h
  | succ steps ih =>
    rw [newton] at h
    split_ifs at h with hfinite hnear
    · cases h
      simpa using hfinite
    · exact ih h

theorem newton_eq_none {x τ : Float} {n : Nat} (steps : Nat) (guess : Float)
    (h : ∀ guess, (newtonStep x n guess).isFinite → ¬(newtonStep x n guess - guess).abs < τ) :
    newton x n τ steps guess = none := by
  induction steps generalizing guess with
  | zero => rfl
  | succ steps ih =>
    rw [newton]
    split_ifs with hfinite hnear
    · rfl
    · exact absurd hnear (h guess (by simpa using hfinite))
    · exact ih _

/-- A negative number has no even root, whatever the settings, but by a search that ends: two steps
of it may lie close to each other though neither is near a root. With a tolerance that is fine
enough for the number and the degree that does not happen. -/
theorem Settings.isNaN_root_iff (settings : Settings) {x : Float} {n : Nat} (hx : x < 0)
    (hfinite : x.isFinite) (heven : n % 2 = 0) (hn : 2 ≤ n) :
    ((settings.root x n).isNaN ↔ newton x n settings.rootTolerance settings.rootSteps
      (x / ofNat n) = none) ∧
    (PowersArePlain (n - 1) → settings.Resolves x n → (settings.root x n).isNaN) := by
  have hzero : (x == 0) = false := by
    rw [← ofMagnitude_magnitude x, ofMagnitude_beq_zero _ (magnitude_lt x)]
    exact decide_eq_false (lt_zero_iff.1 hx).2.1
  have hdirect : (directRoot x n).isNaN := by
    rw [directRoot, if_neg (not_zero_le_of_lt_zero hx), if_neg (by omega)]
    decide
  have hiff : (settings.root x n).isNaN ↔ newton x n settings.rootTolerance settings.rootSteps
      (x / ofNat n) = none := by
    rw [root, hzero, if_neg Bool.false_ne_true, if_neg (by omega)]
    cases hfound : newton x n settings.rootTolerance settings.rootSteps (x / ofNat n) with
    | none => simpa using hdirect
    | some r => simpa using isNaN_eq_false_of_isFinite (isFinite_of_newton hfound)
  refine ⟨hiff, fun hpow h => hiff.2 (newton_eq_none _ _ fun guess hstep => ?_)⟩
  exact not_abs_sub_lt hx hfinite heven hn hpow h hstep

/-- Four is large enough for the square root. -/
theorem Settings.isNaN_root_minus_four :
    (-4 : Float) < 0 ∧ PowersArePlain 1 ∧ Settings.Resolves {} (-4) 2 ∧
      (Settings.root {} (-4) 2).isNaN := by
  have hx : (-4 : Float) < 0 := by decide
  have hpow : PowersArePlain 1 := fun h => absurd h (by decide)
  have hresolves : Settings.Resolves {} (-4) 2 :=
    ⟨by decide, fun _ => by decide, fun _ => by decide +kernel⟩
  exact ⟨hx, hpow, hresolves,
    (Settings.isNaN_root_iff {} hx (by decide) rfl (Nat.le_refl 2)).2 hpow hresolves⟩

/-- The square root of `-1e-22` is a number: the guesses are halved until a step is as short as the
tolerance. -/
theorem Settings.not_forall_isNaN_root : ¬∀ (settings : Settings) (x : Float) (n : Nat),
    x < 0 → x.isFinite → n % 2 = 0 → 2 ≤ n → settings.rootTolerance ≤ 1e-10 →
      (settings.root x n).isNaN := by
  intro h
  have hroot : (Settings.root {} (-1e-22) 2).isNaN = false := by decide +kernel
  have hnone := h {} (-1e-22) 2 (by decide) (by decide +kernel) rfl (Nat.le_refl 2)
    (by decide)
  rw [hroot] at hnone
  exact Bool.false_ne_true hnone

end Calculator
