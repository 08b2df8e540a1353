/-! Ratios of 64-bit words, in lowest terms. A step that would leave the range of the words, or
divide by zero, gives nothing. -/

namespace Calculator

/-- A rational number. The sign is that of the numerator. -/
@[ext]
structure Ratio where
  num : Int64
  den : UInt64
  deriving DecidableEq, Repr

namespace Ratio

/-- The word that is the given integer. -/
def word? (n : Int) : Option Int64 :=
  if Int64.minValue.toInt ≤ n ∧ n ≤ Int64.maxValue.toInt then some (.ofInt n) else none

def neg? (n : Int64) : Option Int64 := if n = .minValue then none else some (-n)

/-- The word itself, or with the other sign. -/
def negIf? (negated : Bool) (n : Int64) : Option Int64 := if negated then neg? n else some n

/-- A word without its sign. -/
def size (n : Int64) : UInt64 := .ofNat n.toInt.natAbs

/-- The word of that size, where there is room for a sign. -/
def signed? (n : UInt64) : Option Int64 :=
  if n.toNat ≤ Int64.maxValue.toInt.toNat then some (.ofNat n.toNat) else none

def quotient? (a b : UInt64) : Option UInt64 := if b = 0 then none else some (a / b)

/-- The greatest common divisor, by Euclid's algorithm. -/
def gcd (a b : UInt64) : UInt64 := if b = 0 then a else gcd b (a % b)
termination_by b.toNat
decreasing_by
  next h =>
    rw [UInt64.toNat_mod]
    exact Nat.mod_lt _ (Nat.pos_of_ne_zero fun hzero => h (UInt64.toNat_inj.1 hzero))

/-- The ratio of two integers, or its negative: the sign is put in front, and common factors are
left out. -/
def reduce? (negated : Bool) (numerator denominator : Int) : Option Ratio := do
  let numerator ← negIf? negated (← word? numerator)
  let denominator ← word? denominator
  let negative := (numerator < 0) != (denominator < 0)
  let divisor := gcd (size numerator) (size denominator)
  let num ← negIf? negative (← signed? (← quotient? (size numerator) divisor))
  let den ← quotient? (size denominator) divisor
  return { num, den }

end Ratio

end Calculator
