import Calculator.Arithmetic.Whole

/-! Powers with whole exponents, by multiplication. -/

namespace Calculator

open Numeral

/-- Products of more factors than this are left to the power function. -/
def maxFactors : Nat := 1000000

/-- Multiplies `acc` by `size` as often as told, or until the product is zero or not finite. -/
def multiply (size acc : Float) : Nat → Float
  | 0 => acc
  | n + 1 =>
    let next := acc * size
    if next == 0 || !next.isFinite then next else multiply size next n

/-- A power with more than `maxFactors` factors: from two on it is too large for any double, up
to a half it vanishes. -/
def hugePower (size : Float) (count : Nat) : Float :=
  if 2 ≤ size then ofMagnitude false infinity
  else if size ≤ 0.5 then 0
  else size.pow (ofNat count)

/-- The product of `count` copies of `base`: the size is multiplied, and the sign follows from
the parity of the count. -/
def repeatedProduct (base : Float) (count : Nat) : Float :=
  let size := base.abs
  let product :=
    if size == 1 then 1
    else if maxFactors < count then hugePower size count
    else multiply size 1 count
  if isNegative base && count % 2 == 1 then -product else product

/-- A power with an integer exponent. It is one for zero; a negative exponent gives the
reciprocal. -/
def integerPower (base : Float) (n : Int) : Float :=
  if n = 0 then 1
  else if n < 0 then 1 / repeatedProduct base n.natAbs
  else repeatedProduct base n.natAbs

theorem multiply_succ (size acc : Float) (n : Nat) :
    multiply size acc (n + 1) =
      if acc * size == 0 || !(acc * size).isFinite then acc * size
      else multiply size (acc * size) n := rfl

/-- The empty product. -/
@[simp] theorem repeatedProduct_zero (base : Float) : repeatedProduct base 0 = 1 := by
  simp [repeatedProduct, multiply]

end Calculator
