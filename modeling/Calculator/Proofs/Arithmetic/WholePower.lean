import Mathlib.Data.Rat.Defs
import Calculator.Proofs.Arithmetic.Reduction

/-! Fractional exponents that come to whole numbers. Main statement: such a power is the one with
that whole exponent, rounded; no root is searched for, whatever the settings. -/

namespace Calculator

namespace Ratio

variable {n d : Int}

theorem divInt_of_dvd (hd : d ≠ 0) (h : d ∣ n) : Rat.divInt n d = (n / d : Int) := by
  obtain ⟨k, rfl⟩ := h
  calc Rat.divInt (d * k) d
    _ = Rat.divInt (d * k) (d * 1) := by rw [Int.mul_one]
    _ = Rat.divInt k 1 := Rat.divInt_mul_left hd
    _ = (k : Int) := Rat.divInt_one k
    _ = (d * k / d : Int) := by rw [Int.mul_ediv_cancel_left k hd]

end Ratio

/-- The power with a ratio that is whole takes no root. -/
theorem Settings.rationalPower_of_den_eq_one (settings : Settings) {x : Float}
    (hx : (x == 0) = false) {ratio : Ratio} (hden : ratio.den.toNat = 1) :
    settings.rationalPower x ratio =
      roundPlaces (integerPower x ratio.num.toInt) settings.places := by
  rw [rationalPower, hden, root_one settings hx, integerPower]
  by_cases hzero : ratio.num.toInt = 0
  · -- no factors at all
    rw [if_pos hzero, hzero, Int.natAbs_zero, repeatedProduct_zero, if_neg (by decide)]
  · rw [if_neg hzero]

namespace Fraction

variable {fraction : Fraction} {read : Reader} {n d : Int}

theorem signed_ediv (hdvd : d ∣ n) : fraction.signed n / d = fraction.signed (n / d) := by
  rw [signed, signed]
  split
  · exact Int.neg_ediv_of_dvd hdvd
  · rfl

theorem dvd_signed (hdvd : d ∣ n) : d ∣ fraction.signed n := by
  rw [signed]
  split
  · exact Int.dvd_neg.2 hdvd
  · exact hdvd

/-- The fraction comes to the quotient of its sides. -/
theorem HasSides.exists_whole (h : fraction.HasSides read n d) (hne : d ≠ 0) (hdvd : d ∣ n) :
    ∃ ratio, fraction.Reduces read n d ratio ∧ ratio.num.toInt = fraction.signed (n / d) ∧
      ratio.den.toNat = 1 := by
  obtain ⟨ratio, hreduces, hnum, hden⟩ := h.exists_reduces hne
  rw [Ratio.divInt_of_dvd hne (dvd_signed hdvd), signed_ediv hdvd] at hnum hden
  exact ⟨ratio, hreduces, hnum, hden⟩

end Fraction

section

variable {settings : Settings} {read : Reader} {source : Text} {base exponent : Expr} {x : Float}

/-- The power with an exponent that is no fraction but comes to a whole number. -/
theorem Expr.eval_pow_of_whole? {y : Float} {n : Int} (span : Span)
    (hbase : base.eval settings read source = .ok x)
    (hplain : Fraction.ofExponent? source exponent = none)
    (hvalue : exponent.eval settings read source = .ok y) (hwhole : whole? y = some n) :
    (binary .pow base exponent span).eval settings read source = .ok (integerPower x n) := by
  rw [eval]
  simp only [if_true, hbase, hplain, hvalue]
  change wholePower x y _ = _
  rw [wholePower, hwhole]

/-- A fractional exponent whose denominator divides its numerator gives the power with their
quotient as exponent, rounded to the places of the settings. An exponent that is that whole number
itself gives the same power, not rounded. -/
theorem eval_pow_of_dvd {fraction : Fraction} {n d : Int}
    (hbase : base.eval settings read source = .ok x) (hx : (x == 0) = false)
    (hfraction : Fraction.ofExponent? source exponent = some fraction)
    (hsides : fraction.HasSides read n d) (hne : d ≠ 0) (hdvd : d ∣ n) (span : Span) :
    (Expr.binary .pow base exponent span).eval settings read source =
      .ok (roundPlaces (integerPower x (fraction.signed (n / d))) settings.places) ∧
    ∀ plain y, Fraction.ofExponent? source plain = none →
      plain.eval settings read source = .ok y → whole? y = some (fraction.signed (n / d)) →
      (Expr.binary .pow base plain span).eval settings read source =
        .ok (integerPower x (fraction.signed (n / d))) := by
  constructor
  · obtain ⟨ratio, hreduces, hnum, hden⟩ := hsides.exists_whole hne hdvd
    rw [Expr.eval_pow_of_fraction span hfraction (hreduces.value _), hbase, ← hnum,
      ← settings.rationalPower_of_den_eq_one hx hden]
    rfl
  · intro plain y hplain hvalue hwhole
    exact Expr.eval_pow_of_whole? span hbase hplain hvalue hwhole

end

/-- The third power of `-2`, as a reciprocal. -/
theorem eval_pow_of_dvd_negated : ∃ e, parseText {} "-2^-(6/2)".toList = .ok e ∧
    e.value {} "-2^-(6/2)".toList = .ok (roundPlaces (integerPower (-2) (-3)) 4) := by
  have hparse : parseText {} "-2^-(6/2)".toList = .ok (.join .pow (.literal (-2) ⟨0, 2⟩)
      (.negate (.group (.join .div (.literal 6 ⟨5, 6⟩) (.literal 2 ⟨7, 8⟩)) ⟨4, 9⟩) ⟨3, 9⟩)) := by
    decide +kernel
  have hsides : Fraction.HasSides ⟨"6".toList, "2".toList, true⟩ (evalText {}) 6 2 :=
    ⟨⟨6, by decide +kernel, by decide +kernel⟩, 2, by decide +kernel, by decide +kernel⟩
  exact ⟨_, hparse, (eval_pow_of_dvd rfl (by decide +kernel) (by decide +kernel) hsides
    (by decide) (by decide) _).1⟩

end Calculator
