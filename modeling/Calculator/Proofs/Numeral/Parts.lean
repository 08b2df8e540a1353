import Calculator.Proofs.Numeral.Pattern

/-! Doubles taken apart and put together. Main statements: what arithmetic sees of a double is told
by its sign and its magnitude, and so are its negative and its absolute value. -/

namespace Calculator.Numeral

open Float.Model (UnpackedFloat)
open Float.Model.UnpackedFloat

attribute [local instance] natPow

/-! ### Doubles taken apart -/

/-- The significant digits of a finite magnitude, as a whole number. -/
def digits (pattern : Nat) : Nat :=
  if pattern < 2 ^ (52 : Nat) then pattern else 2 ^ (52 : Nat) + pattern % 2 ^ (52 : Nat)

/-- The scale of the last digit, the finest being zero. -/
def scale (pattern : Nat) : Nat := pattern / 2 ^ (52 : Nat) - 1

def sign (negative : Bool) : UnpackedFloat.Sign := if negative then .negative else .positive

/-- A size with a sign, among the whole numbers. -/
def signed (negative : Bool) (n : Nat) : Int := if negative then -(n : Int) else n

theorem units_eq (pattern : Nat) : units pattern = digits pattern * 2 ^ scale pattern := by
  rw [units, digits, scale]
  split_ifs with h
  · rw [Nat.div_eq_of_lt h, Nat.zero_sub, Nat.pow_zero, Nat.mul_one]
  · rfl

theorem digits_pos {pattern : Nat} (h : pattern ≠ 0) : 0 < digits pattern := by
  rw [digits]
  split_ifs <;> omega

theorem units_pos {pattern : Nat} (h : pattern ≠ 0) : 0 < units pattern := by
  rw [units_eq]
  exact Nat.mul_pos (digits_pos h) (Nat.two_pow_pos _)

theorem digits_form (pattern : Nat) :
    2 ^ (52 : Nat) ≤ digits pattern ∨ scale pattern = 0 := by
  rw [digits, scale]
  split_ifs <;> omega

/-- The double with the given sign and magnitude, unpacked. -/
def unpacked (negative : Bool) (pattern : Nat) : UnpackedFloat :=
  if h : pattern = 0 then .zero (sign negative)
  else if pattern < infinity then
    .finite (sign negative) (digits pattern) (scale pattern - 1074) (digits_pos h)
  else if pattern = infinity then .infinity (sign negative)
  else .notANumber

section

variable {p : Nat} (a b : Bool)

theorem sign_mul : sign a * sign b = sign (a != b) := by cases a <;> cases b <;> rfl

theorem sign_div : sign a / sign b = sign (a != b) := by cases a <;> cases b <;> rfl

theorem neg_sign : -sign a = sign !a := by cases a <;> rfl

@[simp] theorem signed_zero : signed a 0 = 0 := by cases a <;> rfl

theorem unpacked_zero : unpacked a 0 = .zero (sign a) := rfl

theorem unpacked_of_lt (hp : p ≠ 0) (h : p < infinity) :
    unpacked a p = .finite (sign a) (digits p) (scale p - 1074) (digits_pos hp) := by
  rw [unpacked, dif_neg hp, if_pos h]

theorem unpacked_infinity : unpacked a infinity = .infinity (sign a) := by
  rw [unpacked, dif_neg (by decide), if_neg (Nat.lt_irrefl _), if_pos rfl]

theorem unpacked_of_gt (h : infinity < p) : unpacked a p = .notANumber := by
  rw [unpacked, dif_neg (Nat.ne_of_gt (Nat.zero_lt_of_lt h)), if_neg (Nat.lt_asymm h),
    if_neg (Nat.ne_of_gt h)]

theorem neg_unpacked (p : Nat) : (unpacked a p).neg = unpacked (!a) p := by
  rw [unpacked, unpacked, ← neg_sign]
  split_ifs <;> rfl

theorem abs_unpacked (p : Nat) : (unpacked a p).abs = unpacked false p := by
  rw [unpacked, unpacked]
  split_ifs <;> rfl

end

section

variable (bits : BitVec 64)

theorem toNat_unpackMantissa :
    (@unpackMantissa .binary64 bits).toNat = bits.toNat % 2 ^ (52 : Nat) := by
  simp [unpackMantissa]

theorem ofBitVec_unpackSign :
    Sign.ofBitVec (@unpackSign .binary64 bits) = sign (2 ^ (63 : Nat) ≤ bits.toNat) := by
  have hlt := bits.isLt
  have htoNat : (@unpackSign .binary64 bits).toNat = bits.toNat / 2 ^ (63 : Nat) % 2 := by
    simp [unpackSign, Nat.shiftRight_eq_div_pow]
  have hzero : @unpackSign .binary64 bits = 0#1 ↔ bits.toNat / 2 ^ (63 : Nat) % 2 = 0 := by
    rw [← htoNat, ← BitVec.toNat_inj]
    rfl
  simp only [Sign.ofBitVec, hzero, sign, decide_eq_true_eq]
  split_ifs <;> first | rfl | omega

theorem unpackExponent_eq_iff {n : Nat} (hn : n < 2 ^ (11 : Nat)) :
    @unpackExponent .binary64 bits = BitVec.ofNat 11 n ↔
      bits.toNat / 2 ^ (52 : Nat) % 2 ^ (11 : Nat) = n := by
  rw [← toNat_unpackExponent, ← BitVec.toNat_inj, BitVec.toNat_ofNat, Nat.mod_eq_of_lt hn]

theorem unpackMantissa_eq_zero_iff :
    @unpackMantissa .binary64 bits = 0#52 ↔ bits.toNat % 2 ^ (52 : Nat) = 0 := by
  rw [← toNat_unpackMantissa, ← BitVec.toNat_inj, BitVec.toNat_zero]

theorem unpack_eq_unpacked :
    unpack .binary64 bits =
      unpacked (2 ^ (63 : Nat) ≤ bits.toNat) (bits.toNat % 2 ^ (63 : Nat)) := by
  have hinfinity : infinity = 2047 * 2 ^ (52 : Nat) := rfl
  have hmax : @unpackExponent .binary64 bits = -1#11 ↔ _ :=
    unpackExponent_eq_iff bits (n := 2047) (by decide)
  have hmin := unpackExponent_eq_iff bits (n := 0) (by decide)
  have hzero := unpackMantissa_eq_zero_iff bits
  have hexponent := toNat_unpackExponent bits
  have hmantissa := toNat_unpackMantissa bits
  unfold unpack
  dsimp only
  rw [ofBitVec_unpackSign]
  split_ifs with hinf hnone hsubnormal hnone
  · have hbits : bits.toNat % 2 ^ (63 : Nat) = infinity := by
      have := hmax.1 hinf
      have := hzero.1 hnone
      omega
    rw [hbits, unpacked_infinity]
  · rw [unpacked_of_gt]
    have := hmax.1 hinf
    have := mt hzero.2 hnone
    omega
  · have hbits : bits.toNat % 2 ^ (63 : Nat) = 0 := by
      have := hmin.1 hsubnormal
      have := hzero.1 hnone
      omega
    rw [hbits, unpacked_zero]
  · have hlt : bits.toNat % 2 ^ (63 : Nat) < 2 ^ (52 : Nat) := by
      have := hmin.1 hsubnormal
      omega
    have hne : bits.toNat % 2 ^ (63 : Nat) ≠ 0 := fun heq => hnone (hzero.2 (by omega))
    rw [unpacked_of_lt _ hne (by omega), finite.injEq]
    refine ⟨rfl, ?_, ?_⟩
    · rw [hmantissa, digits, if_pos hlt]
      omega
    · rw [hexponent, hmin.1 hsubnormal, scale, Nat.div_eq_of_lt hlt]
      rfl
  · have hge : ¬bits.toNat % 2 ^ (63 : Nat) < 2 ^ (52 : Nat) := fun hlt =>
      hsubnormal (hmin.2 (by omega))
    have hfinite : bits.toNat % 2 ^ (63 : Nat) < infinity := by
      have := mt hmax.2 hinf
      omega
    rw [unpacked_of_lt _ (by omega) hfinite, finite.injEq]
    refine ⟨rfl, ?_, ?_⟩
    · rw [BitVec.toNat_append, ← Nat.shiftLeft_add_eq_or_of_lt (BitVec.isLt _), hmantissa, digits,
        if_neg hge]
      change 1 <<< 52 + _ = _
      omega
    · change ((@unpackExponent .binary64 bits).toNat : Int) - 1075 = _
      rw [hexponent, scale]
      omega

end

/-- Arithmetic sees the sign and the magnitude of a double. -/
theorem unpack_toModel (x : Float) :
    x.toModel.unpack = unpacked (isNegative x) (magnitude x) := unpack_eq_unpacked _

/-! ### Doubles put together -/

section

variable {u : UnpackedFloat} {a : Bool} {p : Nat}

theorem toNat_toBitVec_sign (a : Bool) : (sign a).toBitVec.toNat = if a then 1 else 0 := by
  cases a <;> rfl

theorem toNat_ofNat_pattern (a : Bool) (h : p < 2 ^ (63 : Nat)) :
    (BitVec.ofNat 64 (if a then 2 ^ (63 : Nat) + p else p)).toNat =
      if a then 2 ^ (63 : Nat) + p else p := by
  rw [BitVec.toNat_ofNat, Nat.mod_eq_of_lt]
  split_ifs <;> omega

theorem ofModel_pack_unpacked (a : Bool) (h : p < 2 ^ (63 : Nat)) :
    Float.ofModel (.pack (unpacked a p)) = ofMagnitude a p := by
  have hsign : decide (2 ^ (63 : Nat) ≤ (BitVec.ofNat 64
      (if a then 2 ^ (63 : Nat) + p else p)).toNat) = a := by
    rw [toNat_ofNat_pattern a h]
    cases a with
    | false => exact decide_eq_false (by simp; omega)
    | true => exact decide_eq_true (by simp)
  have hpattern : (BitVec.ofNat 64 (if a then 2 ^ (63 : Nat) + p else p)).toNat % 2 ^ (63 : Nat) =
      p := by
    rw [toNat_ofNat_pattern a h]
    split_ifs <;> omega
  change _ = Float.ofModel (.pack (unpack .binary64 (BitVec.ofNat 64 _)))
  rw [unpack_eq_unpacked, hsign, hpattern]

/-- What packs to a sign and a magnitude is the double made of them. -/
theorem ofModel_pack (h : (pack .binary64 u).toNat =
    (sign a).toBitVec.toNat * 2 ^ (63 : Nat) + p) (hp : p < 2 ^ (63 : Nat)) :
    Float.ofModel (.pack u) = ofMagnitude a p := by
  have hbits : BitVec.ofNat 64 (if a then 2 ^ (63 : Nat) + p else p) = pack .binary64 u := by
    apply BitVec.eq_of_toNat_eq
    rw [toNat_ofNat_pattern a hp, h, toNat_toBitVec_sign]
    cases a <;> simp
  have hpack : pack .binary64 (unpack .binary64 (BitVec.ofNat 64
      (if a then 2 ^ (63 : Nat) + p else p))) = pack .binary64 u := by
    rw [hbits]
    exact pack_unpack_of_valid valid_pack
  change _ = Float.ofModel (.pack (unpack .binary64 (BitVec.ofNat 64 _)))
  simp only [Float.Model.pack, hpack]

/-- Magnitudes up to infinity are those of numbers. -/
theorem toNat_toBits_ofMagnitude (a : Bool) (h : p ≤ infinity) :
    (ofMagnitude a p).toBits.toNat = if a then 2 ^ (63 : Nat) + p else p := by
  have hinfinity : infinity = 2047 * 2 ^ (52 : Nat) := rfl
  have hbits := toNat_ofNat_pattern a (p := p) (by omega)
  have hvalid : Float.Model.Format.binary64.Valid
      (BitVec.ofNat 64 (if a then 2 ^ (63 : Nat) + p else p)) := by
    refine ⟨fun hmax hne => absurd ((unpackMantissa_eq_zero_iff _).2 ?_) hne⟩
    have hexponent := (unpackExponent_eq_iff _ (n := 2047) (by decide)).1 hmax
    rw [hbits] at hexponent ⊢
    split_ifs at hexponent ⊢ <;> omega
  change (pack .binary64 (unpack .binary64 (BitVec.ofNat 64 _))).toNat = _
  rw [pack_unpack_of_valid hvalid, hbits]

theorem magnitude_ofMagnitude (a : Bool) (h : p ≤ infinity) :
    magnitude (ofMagnitude a p) = p := by
  have hinfinity : infinity = 2047 * 2 ^ (52 : Nat) := rfl
  rw [magnitude, toNat_toBits_ofMagnitude a h]
  split_ifs <;> omega

theorem isNegative_ofMagnitude (a : Bool) (h : p ≤ infinity) :
    isNegative (ofMagnitude a p) = a := by
  have hinfinity : infinity = 2047 * 2 ^ (52 : Nat) := rfl
  rw [isNegative, toNat_toBits_ofMagnitude a h]
  cases a with
  | false => exact decide_eq_false (by simp; omega)
  | true => exact decide_eq_true (by simp)

/-- Arithmetic sees nothing else of them than what they were made of. -/
theorem unpack_ofMagnitude (a : Bool) (h : p < 2 ^ (63 : Nat)) :
    (ofMagnitude a p).toModel.unpack = unpacked a p := by
  rcases Nat.lt_or_ge infinity p with hgt | hle
  · rw [← ofModel_pack_unpacked a h, unpacked_of_gt a hgt]
    rfl
  · rw [unpack_toModel, isNegative_ofMagnitude a hle, magnitude_ofMagnitude a hle]

/-! ### What is asked of doubles -/

/-- The pattern of one. -/
def one : Nat := 1023 * 2 ^ (52 : Nat)

/-- The pattern of two. -/
def two : Nat := 1024 * 2 ^ (52 : Nat)

/-- The pattern of a half. -/
def half : Nat := 1022 * 2 ^ (52 : Nat)

theorem ofMagnitude_zero : ofMagnitude false 0 = 0 := by decide

theorem ofMagnitude_one : ofMagnitude false one = 1 := by decide

theorem ofMagnitude_two : ofMagnitude false two = 2 := by decide

theorem ofMagnitude_half : ofMagnitude false half = 0.5 := by decide

theorem isFinite_ofMagnitude (a : Bool) (h : p < 2 ^ (63 : Nat)) :
    (ofMagnitude a p).isFinite = decide (p < infinity) := by
  change (ofMagnitude a p).toModel.unpack.isFinite = _
  have hpos : 0 < infinity := by decide
  rw [unpack_ofMagnitude a h, unpacked]
  split_ifs with hzero hlt <;> simp [UnpackedFloat.isFinite, *]

theorem ofMagnitude_beq_zero (a : Bool) (h : p < 2 ^ (63 : Nat)) :
    (ofMagnitude a p == 0) = decide (p = 0) := by
  change (ofMagnitude a p).toModel.unpack.beq (0 : Float).toModel.unpack = _
  have hinfinity : infinity ≠ 0 := by decide
  rw [unpack_ofMagnitude a h, ← ofMagnitude_zero, unpack_ofMagnitude false (by decide),
    unpacked_zero, unpacked]
  split_ifs with hzero <;> cases a <;> simp [UnpackedFloat.beq, UnpackedFloat.compare, sign, *]

/-! ### Sign and absolute value -/

/-- A minus flips the sign alone. -/
theorem neg_ofMagnitude (a : Bool) (h : p < 2 ^ (63 : Nat)) :
    -ofMagnitude a p = ofMagnitude (!a) p := by
  change Float.ofModel (.pack (ofMagnitude a p).toModel.unpack.neg) = _
  rw [unpack_ofMagnitude a h, neg_unpacked, ofModel_pack_unpacked _ h]

end

theorem magnitude_lt (x : Float) : magnitude x < 2 ^ (63 : Nat) := Nat.mod_lt _ (Nat.two_pow_pos 63)

theorem neg_eq (x : Float) : -x = ofMagnitude (!isNegative x) (magnitude x) := by
  have hneg := neg_ofMagnitude (isNegative x) (magnitude_lt x)
  rwa [ofMagnitude_magnitude] at hneg

theorem abs_eq (x : Float) : x.abs = ofMagnitude false (magnitude x) := by
  change Float.ofModel (.pack x.toModel.unpack.abs) = _
  rw [unpack_toModel, abs_unpacked, ofModel_pack_unpacked _ (magnitude_lt x)]

end Calculator.Numeral
