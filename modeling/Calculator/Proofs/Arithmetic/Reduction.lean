import Calculator.Proofs.Expr.Rereading

/-! Fractional exponents in lowest terms. Main statement: for sides that are whole numbers no step
leaves the range of its words, and the ratio is the one in lowest terms; so exponents that denote
the same rational number give the same powers. -/

namespace Calculator

open Grammar (bind_eq_ok)

/-! ### Words -/

namespace Ratio

variable {n d : Int} {w : Int64} {a b : UInt64}

theorem exists_word (h : n.natAbs ≤ maxExactWhole) : ∃ w, word? n = some w ∧ w.toInt = n := by
  have hmax : maxExactWhole = 9007199254740991 := rfl
  have hlow : Int64.minValue.toInt = -9223372036854775808 := rfl
  have hhigh : Int64.maxValue.toInt = 9223372036854775807 := rfl
  refine ⟨.ofInt n, if_pos (by omega), Int64.toInt_ofInt_of_le ?_ ?_⟩ <;> omega

theorem exists_neg (h : w.toInt.natAbs ≤ maxExactWhole) :
    ∃ v, neg? w = some v ∧ v.toInt = -w.toInt := by
  have hmax : maxExactWhole = 9007199254740991 := rfl
  have hlow : Int64.minValue.toInt = -9223372036854775808 := rfl
  refine ⟨-w, if_neg ?_, ?_⟩
  · rintro rfl
    omega
  · have hneg : -w = Int64.ofInt (-w.toInt) := by rw [Int64.ofInt_neg, Int64.ofInt_toInt]
    rw [hneg]
    exact Int64.toInt_ofInt_of_le (by omega) (by omega)

theorem exists_negIf (h : w.toInt.natAbs ≤ maxExactWhole) (negated : Bool) :
    ∃ v, negIf? negated w = some v ∧ v.toInt = if negated then -w.toInt else w.toInt := by
  cases negated with
  | false => exact ⟨w, rfl, rfl⟩
  | true => exact exists_neg h

theorem toNat_size (w : Int64) : (size w).toNat = w.toInt.natAbs := by
  have hlow := w.le_toInt
  have hhigh := w.toInt_lt
  exact UInt64.toNat_ofNat_of_lt' (by rw [UInt64.size]; omega)

theorem exists_signed (h : a.toNat ≤ maxExactWhole) :
    ∃ w, signed? a = some w ∧ w.toInt = a.toNat := by
  have hmax : maxExactWhole = 9007199254740991 := rfl
  have hhigh : Int64.maxValue.toInt.toNat = 9223372036854775807 := rfl
  exact ⟨.ofNat a.toNat, if_pos (by omega), Int64.toInt_ofNat_of_lt (by omega)⟩

theorem exists_quotient (h : 0 < b.toNat) :
    ∃ q, quotient? a b = some q ∧ q.toNat = a.toNat / b.toNat := by
  refine ⟨a / b, if_neg ?_, UInt64.toNat_div a b⟩
  rintro rfl
  exact absurd h (Nat.lt_irrefl 0)

theorem toNat_gcd (a b : UInt64) : (gcd a b).toNat = Nat.gcd a.toNat b.toNat := by
  fun_induction gcd a b with
  | case1 a => exact (Nat.gcd_zero_right _).symm
  | case2 a b h ih => rw [ih, UInt64.toNat_mod, Nat.gcd_comm, ← Nat.gcd_rec, Nat.gcd_comm]

/-- The sign of a quotient of integers, from theirs. -/
theorem sign_mul_sign (n : Int) (hd : d ≠ 0) {size : Nat} (hzero : n = 0 → size = 0) :
    d.sign * n.sign * size =
      if decide (n < 0) != decide (d < 0) then -(size : Int) else size := by
  rcases Int.lt_trichotomy n 0 with hn | rfl | hn
  · rcases Int.lt_or_gt_of_ne hd with hd | hd
    · simp [hn, hd, Int.sign_eq_neg_one_of_neg]
    · simp [hn, Int.lt_asymm hd, Int.sign_eq_neg_one_of_neg, Int.sign_eq_one_of_pos hd]
  · simp [hzero rfl]
  · rcases Int.lt_or_gt_of_ne hd with hd | hd
    · simp [hd, Int.lt_asymm hn, Int.sign_eq_neg_one_of_neg, Int.sign_eq_one_of_pos hn]
    · simp [Int.lt_asymm hn, Int.lt_asymm hd, Int.sign_eq_one_of_pos, hn, hd]

theorem num_divInt_eq (n : Int) (hd : d ≠ 0) :
    (Rat.divInt n d).num =
      if decide (n < 0) != decide (d < 0) then -((n.natAbs / n.natAbs.gcd d.natAbs : Nat) : Int)
      else (n.natAbs / n.natAbs.gcd d.natAbs : Nat) := by
  have hdvd : ((n.natAbs.gcd d.natAbs : Nat) : Int) ∣ n.natAbs :=
    Int.natCast_dvd_natCast.2 (Nat.gcd_dvd_left ..)
  calc (Rat.divInt n d).num
    _ = d.sign * n / n.natAbs.gcd d.natAbs := by rw [Rat.num_divInt, Int.gcd, Nat.gcd_comm]
    _ = d.sign * n.sign * n.natAbs / n.natAbs.gcd d.natAbs := by
      rw [Int.mul_assoc, Int.sign_mul_natAbs]
    _ = d.sign * n.sign * (n.natAbs / n.natAbs.gcd d.natAbs : Nat) := by
      rw [Int.mul_ediv_assoc _ hdvd, Int.natCast_ediv]
    _ = _ := sign_mul_sign n hd (by rintro rfl; simp)

theorem den_divInt_eq (n : Int) (hd : d ≠ 0) :
    (Rat.divInt n d).den = d.natAbs / n.natAbs.gcd d.natAbs := by
  rw [Rat.den_divInt, if_neg hd, Int.gcd, Nat.gcd_comm]

theorem toNat_gcd_size (m w : Int64) :
    (gcd (size m) (size w)).toNat = m.toInt.natAbs.gcd w.toInt.natAbs := by
  rw [toNat_gcd, toNat_size, toNat_size]

theorem exists_quotient_size (v m : Int64) (h : w.toInt ≠ 0) :
    ∃ q, quotient? (size v) (gcd (size m) (size w)) = some q ∧
      q.toNat = v.toInt.natAbs / m.toInt.natAbs.gcd w.toInt.natAbs := by
  have hpos : 0 < (gcd (size m) (size w)).toNat := by
    rw [toNat_gcd_size]
    exact Nat.gcd_pos_of_pos_right _ (Int.natAbs_pos.2 h)
  obtain ⟨q, hq, hvalue⟩ := exists_quotient (a := size v) hpos
  rw [toNat_gcd_size, toNat_size] at hvalue
  exact ⟨q, hq, hvalue⟩

theorem exists_num {m : Int64} (hm : m.toInt.natAbs ≤ maxExactWhole) (hne : w.toInt ≠ 0) :
    ∃ q v num, quotient? (size m) (gcd (size m) (size w)) = some q ∧ signed? q = some v ∧
      negIf? ((m < 0) != (w < 0)) v = some num ∧ num.toInt = (Rat.divInt m.toInt w.toInt).num := by
  obtain ⟨q, hq, hqvalue⟩ := exists_quotient_size m m hne
  have hle : q.toNat ≤ maxExactWhole := by
    rw [hqvalue]
    exact Nat.le_trans (Nat.div_le_self _ _) hm
  obtain ⟨v, hv, hvvalue⟩ := exists_signed hle
  have hvle : v.toInt.natAbs ≤ maxExactWhole := by rwa [hvvalue]
  obtain ⟨num, hnum, hnumvalue⟩ := exists_negIf hvle ((m < 0) != (w < 0))
  refine ⟨q, v, num, hq, hv, hnum, ?_⟩
  rw [hnumvalue, num_divInt_eq _ hne, hvvalue, hqvalue]
  simp only [Int64.lt_iff_toInt_lt, Int64.toInt_zero]

/-- No step of the reduction fails, and it comes to the lowest terms. -/
theorem reduce?_eq_some (hn : n.natAbs ≤ maxExactWhole) (hd : d.natAbs ≤ maxExactWhole)
    (hne : d ≠ 0) (negated : Bool) :
    ∃ ratio, reduce? negated n d = some ratio ∧
      ratio.num.toInt = (Rat.divInt (if negated then -n else n) d).num ∧
      ratio.den.toNat = (Rat.divInt (if negated then -n else n) d).den := by
  obtain ⟨numerator, hnumerator, rfl⟩ := exists_word hn
  obtain ⟨denominator, hdenominator, rfl⟩ := exists_word hd
  obtain ⟨m, hm, hmvalue⟩ := exists_negIf hn negated
  have hmle : m.toInt.natAbs ≤ maxExactWhole := by
    rw [hmvalue]
    cases negated
    · exact hn
    · exact Nat.le_trans (Nat.le_of_eq (Int.natAbs_neg _)) hn
  obtain ⟨q, v, num, hq, hv, hnum, hnumvalue⟩ := exists_num hmle hne
  obtain ⟨den, hden, hdenvalue⟩ := exists_quotient_size denominator m hne
  rw [← hmvalue]
  refine ⟨⟨num, den⟩, ?_, hnumvalue, hdenvalue.trans (den_divInt_eq _ hne).symm⟩
  simp only [reduce?, hnumerator, hdenominator, Option.bind_eq_bind, Option.bind_some, hm, hq, hv,
    hnum, hden, Option.pure_def]

/-- The ratio is `n / d` in lowest terms. -/
structure IsLowest (ratio : Ratio) (n d : Int) : Prop where
  den_pos : 0 < ratio.den.toNat
  coprime : ratio.num.toInt.natAbs.gcd ratio.den.toNat = 1
  cross : ratio.num.toInt * d = n * ratio.den.toNat

theorem isLowest_of_divInt {ratio : Ratio} (hd : d ≠ 0)
    (hnum : ratio.num.toInt = (Rat.divInt n d).num)
    (hden : ratio.den.toNat = (Rat.divInt n d).den) : ratio.IsLowest n d := by
  have hzero : ((Rat.divInt n d).den : Int) ≠ 0 := Int.natCast_ne_zero.2 (Rat.den_nz _)
  refine ⟨?_, ?_, ?_⟩
  · rw [hden]
    exact Rat.den_pos _
  · rw [hnum, hden]
    exact (Rat.divInt n d).reduced
  · rw [hnum, hden, ← Rat.divInt_eq_divInt_iff hzero hd]
    exact Rat.num_divInt_den _

end Ratio

/-! ### Exponents -/

namespace Fraction

/-- Both sides of the fraction have whole values, `n` and `d`. -/
structure HasSides (fraction : Fraction) (read : Reader) (n d : Int) : Prop where
  numerator : ∃ x, read fraction.numerator = .ok x ∧ whole? x = some n
  denominator : ∃ y, read fraction.denominator = .ok y ∧ whole? y = some d

/-- A numerator with the sign of the fraction. -/
def signed (fraction : Fraction) (n : Int) : Int := if fraction.negated then -n else n

variable {fraction : Fraction} {read : Reader} {quote text : Text} {n d : Int} {ratio : Ratio}

theorem side_eq_ok_iff :
    side read quote text = .ok n ↔ ∃ x, read text = .ok x ∧ whole? x = some n := by
  rw [side, bind_eq_ok]
  refine exists_congr fun x => and_congr_right fun _ => ?_
  cases whole? x with
  | none => simp
  | some m => simp [pure, Except.pure]

/-- A fraction has no value but by a reduction. -/
theorem value_eq_ok_iff : fraction.value read quote = .ok ratio ↔
    ∃ n d, fraction.HasSides read n d ∧ d ≠ 0 ∧
      Ratio.reduce? fraction.negated n d = some ratio := by
  constructor
  · intro h
    obtain ⟨n, hn, h⟩ := bind_eq_ok.1 h
    obtain ⟨d, hd, h⟩ := bind_eq_ok.1 h
    split at h
    · cases h
    · next hne =>
      split at h
      · next hreduce =>
        cases h
        exact ⟨n, d, ⟨side_eq_ok_iff.1 hn, side_eq_ok_iff.1 hd⟩, hne, hreduce⟩
      · cases h
  · rintro ⟨n, d, hsides, hne, hreduce⟩
    refine bind_eq_ok.2 ⟨n, side_eq_ok_iff.2 hsides.numerator,
      bind_eq_ok.2 ⟨d, side_eq_ok_iff.2 hsides.denominator, ?_⟩⟩
    rw [if_neg hne, hreduce]
    rfl

/-- The fraction, whose sides are `n` and `d`, comes to the ratio. -/
structure Reduces (fraction : Fraction) (read : Reader) (n d : Int) (ratio : Ratio) : Prop where
  /-- No step leaves the range of the words or divides by zero. -/
  reduce : Ratio.reduce? fraction.negated n d = some ratio
  value : ∀ quote, fraction.value read quote = .ok ratio
  lowest : ratio.IsLowest (fraction.signed n) d
  /-- The root of that degree can take one from it. -/
  degree : (ratio.den - 1).toNat + 1 = ratio.den.toNat

theorem HasSides.exists_reduces (h : fraction.HasSides read n d) (hne : d ≠ 0) :
    ∃ ratio, fraction.Reduces read n d ratio ∧
      ratio.num.toInt = (Rat.divInt (fraction.signed n) d).num ∧
      ratio.den.toNat = (Rat.divInt (fraction.signed n) d).den := by
  have ⟨⟨x, _, hx⟩, y, _, hy⟩ := h
  obtain ⟨ratio, hreduce, hnum, hden⟩ := Ratio.reduce?_eq_some (natAbs_le_of_whole? hx)
    (natAbs_le_of_whole? hy) hne fraction.negated
  have hlowest := Ratio.isLowest_of_divInt hne hnum hden
  have hone : (1 : UInt64) ≤ ratio.den := UInt64.le_iff_toNat_le.2 hlowest.den_pos
  refine ⟨ratio, ⟨hreduce, fun quote => ?_, hlowest, ?_⟩, hnum, hden⟩
  · exact value_eq_ok_iff.2 ⟨n, d, h, hne, hreduce⟩
  · rw [UInt64.toNat_sub_of_le _ _ hone]
    exact Nat.sub_add_cancel hlowest.den_pos

end Fraction

/-- The power with a fraction for its exponent, from the ratio that the fraction comes to. -/
theorem Expr.eval_pow_of_fraction {settings : Settings} {read : Reader} {source : Text}
    {base exponent : Expr} {fraction : Fraction} {ratio : Ratio} (span : Span)
    (h : Fraction.ofExponent? source exponent = some fraction)
    (hvalue : fraction.value read (exponent.span.text source) = .ok ratio) :
    (binary .pow base exponent span).eval settings read source =
      (base.eval settings read source).map (settings.rationalPower · ratio) := by
  rw [eval]
  simp only [if_true, h, hvalue]
  cases base.eval settings read source <;> rfl

/-- A fraction whose sides are whole numbers, the denominator not zero, is reduced without a step
out of range to the ratio in lowest terms, and no other fraction has a value. Fractions that denote
the same number come to the same ratio, and as exponents give equal bases equal powers. -/
theorem fraction_reduces (read : Reader) (fraction : Fraction) :
    (∀ quote ratio, fraction.value read quote = .ok ratio →
      ∃ n d, fraction.HasSides read n d ∧ d ≠ 0) ∧
    ∀ n d, fraction.HasSides read n d → d ≠ 0 →
      ∃ ratio, fraction.Reduces read n d ratio ∧
        ∀ read' fraction' n' d', Fraction.HasSides fraction' read' n' d' → d' ≠ 0 →
          Rat.divInt (fraction'.signed n') d' = Rat.divInt (fraction.signed n) d →
          fraction'.Reduces read' n' d' ratio ∧
          ∀ settings source source' base base' exponent exponent' span span',
            Fraction.ofExponent? source exponent = some fraction →
            Fraction.ofExponent? source' exponent' = some fraction' →
            Expr.eval settings read source base = Expr.eval settings read' source' base' →
            Expr.eval settings read source (.binary .pow base exponent span) =
              Expr.eval settings read' source' (.binary .pow base' exponent' span') := by
  constructor
  · intro quote ratio hvalue
    obtain ⟨n, d, hsides, hne, _⟩ := Fraction.value_eq_ok_iff.1 hvalue
    exact ⟨n, d, hsides, hne⟩
  · intro n d hsides hne
    obtain ⟨ratio, hreduces, hnum, hden⟩ := hsides.exists_reduces hne
    refine ⟨ratio, hreduces, ?_⟩
    intro read' fraction' n' d' hsides' hne' hsame
    obtain ⟨ratio', hreduces', hnum', hden'⟩ := hsides'.exists_reduces hne'
    -- A ratio in lowest terms is told by the number that it stands for.
    obtain rfl : ratio' = ratio := by
      rw [hsame, ← hnum] at hnum'
      rw [hsame, ← hden] at hden'
      exact Ratio.ext (Int64.toInt_inj.1 hnum') (UInt64.toNat_inj.1 hden')
    refine ⟨hreduces', ?_⟩
    intro settings source source' base base' exponent exponent' span span' h h' hbase
    rw [Expr.eval_pow_of_fraction span h (hreduces.value _),
      Expr.eval_pow_of_fraction span' h' (hreduces'.value _), hbase]

/-- Two ways to write three halves. -/
theorem fraction_reduces_signs :
    Fraction.Reduces ⟨"-6".toList, "4".toList, true⟩ (evalText {}) (-6) 4 ⟨3, 2⟩ ∧
      Fraction.Reduces ⟨"1+2".toList, "2".toList, false⟩ (evalText {}) 3 2 ⟨3, 2⟩ := by
  obtain ⟨ratio, hreduces, hsame⟩ :=
    (fraction_reduces (evalText {}) ⟨"-6".toList, "4".toList, true⟩).2 (-6) 4
      ⟨⟨-6, by decide +kernel, by decide +kernel⟩, 4, by decide +kernel, by decide +kernel⟩
      (by decide)
  obtain ⟨hreduces', _⟩ := hsame (evalText {}) ⟨"1+2".toList, "2".toList, false⟩ 3 2
    ⟨⟨3, by decide +kernel, by decide +kernel⟩, 2, by decide +kernel, by decide +kernel⟩
    (by decide) (by decide +kernel)
  obtain rfl : ⟨3, 2⟩ = ratio := Option.some.inj <|
    (show some _ = Ratio.reduce? true (-6) 4 by decide +kernel).trans hreduces.reduce
  exact ⟨hreduces, hreduces'⟩

end Calculator
