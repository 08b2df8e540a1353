import Calculator.Text.Basic
import Calculator.Numeral.Binary

/-! Decimals, and the shortest one that reads back as a given double. -/

namespace Calculator.Numeral

attribute [local instance] natPow

/-- The number `coefficient * 10 ^ scale`, in units of `10 ^ -1074`. -/
structure Decimal where
  coefficient : Nat
  scale : Nat
  deriving DecidableEq, Repr

namespace Decimal

/-- The magnitude that the decimal reads as. -/
def magnitude (d : Decimal) : Nat := nearest (d.coefficient * 10 ^ d.scale) (10 ^ fineness)

/-- The neighbours of `exact` among the multiples of `10 ^ scale`, the nearer one first; a tie
goes up. -/
def neighbours (exact scale : Nat) : List Decimal :=
  let below : Decimal := ⟨exact / 10 ^ scale, scale⟩
  let above : Decimal := ⟨exact / 10 ^ scale + 1, scale⟩
  if 2 * (exact % 10 ^ scale) < 10 ^ scale then [below, above] else [above, below]

/-- Tries the multiples of `10 ^ scale` and of each lower power of ten for a neighbour of `exact`
that reads as `pattern`; in the end there is `exact` itself. -/
def coarsest (exact pattern : Nat) : (scale : Nat) → Decimal
  | 0 => ⟨exact, 0⟩
  | scale + 1 =>
    match (neighbours exact (scale + 1)).find? (·.magnitude == pattern) with
    | some d => d
    | none => coarsest exact pattern scale

/-- The decimal of fewest digits that reads as `pattern`, and of those the nearest one. The search
begins above the first digit, as 28/93 is more than the decimal logarithm of two. -/
def shortest (pattern : Nat) : Decimal :=
  let exact := units pattern * 5 ^ fineness
  coarsest exact pattern (exact.log2 * 28 / 93 + 1)

/-- The decimal in positional notation, without zeros after the last digit of its fraction. -/
def text (d : Decimal) : Text :=
  let places := fineness - d.scale
  let digits := Nat.toDigits 10 d.coefficient ++ List.replicate (d.scale - fineness) '0'
  let padded := List.replicate (places + 1 - digits.length) '0' ++ digits
  let whole := padded.take (padded.length - places)
  let fraction := ((padded.drop (padded.length - places)).reverse.dropWhile (· == '0')).reverse
  if fraction.isEmpty then whole else whole ++ '.' :: fraction

theorem magnitude_exact {pattern : Nat} (h : pattern < infinity) :
    magnitude ⟨units pattern * 5 ^ fineness, 0⟩ = pattern := by
  rw [magnitude, Nat.pow_zero, Nat.mul_one, show 10 = 2 * 5 from rfl, Nat.mul_pow,
    nearest_mul_mul _ _ (Nat.pow_pos (by decide)), nearest_units h]

/-- The shortest decimal reads back. -/
theorem magnitude_shortest {pattern : Nat} (h : pattern < infinity) :
    (shortest pattern).magnitude = pattern := by
  have search (scale : Nat) :
      (coarsest (units pattern * 5 ^ fineness) pattern scale).magnitude = pattern := by
    induction scale with
    | zero => exact magnitude_exact h
    | succ scale ih =>
      rw [coarsest]
      split
      · rename_i d hd
        simpa using List.find?_some hd
      · exact ih
  exact search _

end Decimal

end Calculator.Numeral
