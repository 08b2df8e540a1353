import Calculator.Proofs.Numeral.Parts
import Calculator.Proofs.Numeral.Rounded

/-! Sums and differences of doubles. Main statements: the sum of finite doubles is the one nearest to
the sum of what they stand for, sides that are not finite have no finite sum, and a difference is the
sum with the negative. -/

namespace Calculator.Numeral

open Float.Model (UnpackedFloat totalExponent)
open Float.Model.UnpackedFloat

attribute [local instance] natPow

section

variable {p q : Nat} (a b : Bool)

theorem apply_sign (n : Int) : (sign a).apply n = if a then -n else n := by cases a <;> rfl

/-- What is rounded is brought to a scale first at which it has digits enough. -/
theorem toNat_pack_round (s : UnpackedFloat.Sign) {m : Nat} (e : Int) (hm : 0 < m) :
    (pack .binary64 (UnpackedFloat.round .binary64 s m e)).toNat =
      s.toBitVec.toNat * 2 ^ (63 : Nat) + nearest (m * 2 ^ e.toNat) (2 ^ (-e).toNat) := by
  obtain ⟨t, ht⟩ : ∃ t : Int, t = max ((m.log2 : Int) + e - 52) (-1074) := ⟨_, rfl⟩
  have htarget : Float.Model.Format.binary64.targetExponent (totalExponent m e) = t := by
    change max ((m.log2 : Int) + 1 + e - 53) (-1074) = t
    omega
  obtain ⟨shift, hshift⟩ : ∃ shift : Nat, shift = (e - t).toNat := ⟨_, rfl⟩
  have hfine : 52 ≤ (m * 2 ^ shift).log2 ∨ e - shift ≤ -1074 := by
    rw [log2_mul_two_pow (Nat.ne_of_gt hm)]
    omega
  have hround : UnpackedFloat.round .binary64 s m e =
      roundWithAccuracy .binary64 s (m * 2 ^ shift) (e - shift) .exact := by
    rw [UnpackedFloat.round, htarget, decreaseExponent, Nat.shiftLeft_eq, hshift]
  have hnearest : nearest (m * 2 ^ shift * 2 ^ (e - shift).toNat) (1 * 2 ^ (-(e - shift)).toNat) =
      nearest (m * 2 ^ e.toNat) (1 * 2 ^ (-e).toNat) := by
    rw [Nat.mul_assoc, ← Nat.pow_add]
    exact nearest_mul_pow Nat.one_pos (by omega)
  rw [hround, toNat_pack_eq_nearest s Nat.one_pos (ofMantissaAndAccuracy_exact _)
    (Nat.div_one _).symm hfine, hnearest, Nat.one_mul]

/-- What is rounded is the double nearest to it, and no sign is kept on zero. -/
theorem ofModel_pack_normalize (m : Int) (k : Nat) :
    Float.ofModel (.pack (UnpackedFloat.normalize .binary64 m ((k : Int) - 1074) .positive)) =
      ofMagnitude (decide (m < 0)) (nearest (m.natAbs * 2 ^ k) (2 ^ fineness)) := by
  have hfineness : fineness = 1074 := rfl
  have hnearest : nearest (m.natAbs * 2 ^ ((k : Int) - 1074).toNat)
      (1 * 2 ^ (-((k : Int) - 1074)).toNat) = nearest (m.natAbs * 2 ^ k) (1 * 2 ^ fineness) :=
    nearest_mul_pow Nat.one_pos (by omega)
  rw [Nat.one_mul, Nat.one_mul] at hnearest
  rcases Int.lt_trichotomy m 0 with hneg | rfl | hpos
  · rw [UnpackedFloat.normalize, Int.compare_eq_lt.2 hneg, ← hnearest, decide_eq_true hneg]
    refine ofModel_pack ?_ (nearest_lt ..)
    rw [toNat_pack_round _ _ (by omega), show (-m).toNat = m.natAbs by omega]
    rfl
  · rw [Int.natAbs_zero, Nat.zero_mul, nearest_zero]
    exact ofModel_pack_unpacked false (Nat.two_pow_pos 63)
  · rw [UnpackedFloat.normalize, Int.compare_eq_gt.2 hpos, ← hnearest,
      decide_eq_false (Int.lt_asymm hpos)]
    refine ofModel_pack ?_ (nearest_lt ..)
    rw [toNat_pack_round _ _ (by omega), show m.toNat = m.natAbs by omega]
    rfl

/-- Digits brought to a finer scale. -/
theorem apply_decreaseExponent {k : Nat} (h : k ≤ scale p) :
    (sign a).apply (decreaseExponent (digits p) ((scale p : Int) - 1074) (k - 1074)).1 * 2 ^ k =
      signed a (units p) := by
  have hshift : ((scale p : Int) - 1074 - (k - 1074)).toNat = scale p - k := by omega
  have hunits : ((digits p * 2 ^ (scale p - k) : Nat) : Int) * 2 ^ k = units p := by
    rw [units_eq, ← Nat.sub_add_cancel h, Nat.pow_add, ← Nat.mul_assoc, Nat.add_sub_cancel]
    push_cast
    rfl
  rw [decreaseExponent, hshift, Nat.shiftLeft_eq, apply_sign, signed, ← hunits]
  split_ifs
  · exact Int.neg_mul _ _
  · rfl

theorem signed_natAbs (m : Int) (k : Nat) :
    signed (decide (m < 0)) (m.natAbs * 2 ^ k) = m * 2 ^ k := by
  rw [signed]
  push_cast
  split_ifs with h
  · rw [abs_of_neg (of_decide_eq_true h), neg_mul, neg_neg]
  · rw [abs_of_nonneg (Int.not_lt.1 fun hneg => h (decide_eq_true hneg))]

theorem ofModel_pack_add (hp : p < infinity) (hq : q < infinity) :
    ∃ c n, signed c n = signed a (units p) + signed b (units q) ∧
      Float.ofModel (.pack (UnpackedFloat.add .binary64 (unpacked a p) (unpacked b q))) =
        ofMagnitude c (nearest n (2 ^ fineness)) := by
  have hinfinity : infinity < 2 ^ (63 : Nat) := by decide
  by_cases hp0 : p = 0
  · rw [hp0, unpacked_zero, units_zero, signed_zero, Int.zero_add]
    by_cases hq0 : q = 0
    · rw [hq0, unpacked_zero, units_zero, signed_zero]
      refine ⟨a && b, 0, signed_zero _, ?_⟩
      rw [nearest_zero, ← ofModel_pack_unpacked _ (Nat.two_pow_pos 63), unpacked_zero]
      cases a <;> cases b <;> rfl
    · refine ⟨b, units q, rfl, ?_⟩
      rw [nearest_units hq, ← ofModel_pack_unpacked b (Nat.lt_trans hq hinfinity),
        unpacked_of_lt b hq0 hq]
      rfl
  by_cases hq0 : q = 0
  · refine ⟨a, units p, ?_, ?_⟩
    · rw [hq0, units_zero, signed_zero, Int.add_zero]
    · rw [hq0, unpacked_zero, nearest_units hp,
        ← ofModel_pack_unpacked a (Nat.lt_trans hp hinfinity), unpacked_of_lt a hp0 hp]
      rfl
  obtain ⟨k, hk⟩ : ∃ k : Nat, k = min (scale p) (scale q) := ⟨_, rfl⟩
  have hmin : min ((scale p : Int) - 1074) (scale q - 1074) = k - 1074 := by omega
  rw [unpacked_of_lt a hp0 hp, unpacked_of_lt b hq0 hq, UnpackedFloat.add]
  dsimp only
  rw [hmin, ofModel_pack_normalize, ← apply_decreaseExponent a (p := p) (k := k) (by omega),
    ← apply_decreaseExponent b (p := q) (k := k) (by omega), ← Int.add_mul]
  exact ⟨_, _, signed_natAbs _ k, rfl⟩

end

section

variable {x y : Float}

/-- The sum of finite doubles is the double nearest to the sum of what they stand for. -/
theorem add_eq (hx : magnitude x < infinity) (hy : magnitude y < infinity) :
    ∃ c n, signed c n =
        signed (isNegative x) (units (magnitude x)) + signed (isNegative y) (units (magnitude y)) ∧
      x + y = ofMagnitude c (nearest n (2 ^ fineness)) := by
  obtain ⟨c, n, hsum, hadd⟩ := ofModel_pack_add (isNegative x) (isNegative y) hx hy
  refine ⟨c, n, hsum, ?_⟩
  rw [← hadd, ← unpack_toModel, ← unpack_toModel]
  rfl

theorem add_of_not_finite {u v : UnpackedFloat} (h : ¬(u.isFinite ∧ v.isFinite)) :
    (∃ s, UnpackedFloat.add .binary64 u v = .infinity s) ∨
      UnpackedFloat.add .binary64 u v = .notANumber := by
  cases u with
  | notANumber => exact .inr rfl
  | infinity s =>
    cases v with
    | notANumber => exact .inr rfl
    | infinity s' =>
      rw [UnpackedFloat.add]
      split
      · exact .inl ⟨_, rfl⟩
      · exact .inr rfl
    | _ => exact .inl ⟨_, rfl⟩
  | zero s =>
    cases v with
    | notANumber => exact .inr rfl
    | infinity s' => exact .inl ⟨_, rfl⟩
    | _ => exact absurd ⟨rfl, rfl⟩ h
  | finite s m e hm =>
    cases v with
    | notANumber => exact .inr rfl
    | infinity s' => exact .inl ⟨_, rfl⟩
    | _ => exact absurd ⟨rfl, rfl⟩ h

/-- No finite sum has a side that is not finite. -/
theorem isFinite_of_add (h : (x + y).isFinite) : x.isFinite ∧ y.isFinite := by
  by_contra hne
  have hinfinity (s : UnpackedFloat.Sign) :
      (Float.ofModel (.pack (.infinity s))).isFinite = false := by
    cases s <;> decide
  have hnone : (Float.ofModel (.pack .notANumber)).isFinite = false := by decide
  change (Float.ofModel (.pack
    (UnpackedFloat.add .binary64 x.toModel.unpack y.toModel.unpack))).isFinite at h
  rcases add_of_not_finite hne with ⟨s, hs⟩ | hadd
  · rw [hs, hinfinity] at h
    exact Bool.false_ne_true h
  · rw [hadd, hnone] at h
    exact Bool.false_ne_true h

theorem sub_unpacked (u v : UnpackedFloat) :
    UnpackedFloat.sub .binary64 u v = UnpackedFloat.add .binary64 u v.neg := by
  cases u with
  | finite s m e hm =>
    cases v with
    | finite s' m' e' hm' =>
      have hsign (n : Int) (k : Nat) : n - s'.apply k = n + (-s').apply k := by
        cases s' with
        | positive => exact Int.sub_eq_add_neg
        | negative => exact Int.sub_neg n k
      rw [UnpackedFloat.sub]
      dsimp only
      rw [hsign]
      rfl
    | _ => rfl
  | _ => cases v <;> rfl

theorem unpack_neg (x : Float) : (-x).toModel.unpack = x.toModel.unpack.neg := by
  rw [neg_eq, unpack_ofMagnitude _ (magnitude_lt x), unpack_toModel, neg_unpacked]

theorem sub_eq (x y : Float) : x - y = x + -y := by
  change Float.ofModel (.pack (UnpackedFloat.sub .binary64 x.toModel.unpack y.toModel.unpack)) =
    Float.ofModel (.pack (UnpackedFloat.add .binary64 x.toModel.unpack (-y).toModel.unpack))
  rw [sub_unpacked, unpack_neg]

end

end Calculator.Numeral
