import Calculator.Numeral.Binary

/-! Rounding to whole numbers and to decimal places, halves away from zero. -/

namespace Calculator

open Numeral

attribute [local instance] natPow

/-- The nearest whole number. The sign stays, also on zero. -/
def roundWhole (x : Float) : Float :=
  if magnitude x < infinity then
    let size := (2 * units (magnitude x) + 2 ^ fineness) / 2 ^ (fineness + 1)
    ofMagnitude (isNegative x) (nearest size 1)
  else x

/-- Multiplies `acc` by `base ^ n`, squaring the base once for each binary digit of `n`. -/
def mulPower (acc base : Float) (n : Nat) : Float :=
  let acc := if n % 2 = 1 then acc * base else acc
  if n / 2 = 0 then acc else mulPower acc (base * base) (n / 2)
termination_by n

/-- Ten to the power `n`; a negative power is a reciprocal. -/
def tenPower (n : Int) : Float :=
  let size := mulPower 1 10 n.natAbs
  if n < 0 then 1 / size else size

/-- Rounds to a number of decimal places. What is too large to be scaled stays as it is. -/
def roundPlaces (x : Float) (places : Int) : Float :=
  let scaled := x * tenPower places
  if scaled.isFinite then roundWhole scaled / tenPower places else x

end Calculator
