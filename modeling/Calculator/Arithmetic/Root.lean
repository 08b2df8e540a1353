import Calculator.Arithmetic.Power
import Calculator.Arithmetic.Ratio
import Calculator.Arithmetic.Rounding
import Calculator.Settings

/-! Roots by Newton's method, and powers with rational exponents. -/

namespace Calculator

open Numeral

/-- One step towards the `n`-th root of `x`: `((n - 1) * guess + x / guess ^ (n - 1)) / n`. -/
def newtonStep (x : Float) (n : Nat) (guess : Float) : Float :=
  ((ofNat n - 1) * guess + x / repeatedProduct guess (n - 1)) / ofNat n

/-- Takes steps until two of them lie closer than `tolerance`. None if that does not happen in
the given number of steps, or a step is not finite. -/
def newton (x : Float) (n : Nat) (tolerance : Float) : Nat → Float → Option Float
  | 0, _ => none
  | steps + 1, guess =>
    let next := newtonStep x n guess
    if !next.isFinite then none
    else if (next - guess).abs < tolerance then some next
    else newton x n tolerance steps next

/-- The root by the power function. A negative number has odd roots only. -/
def directRoot (x : Float) (n : Nat) : Float :=
  if 0 ≤ x then x.pow (1 / ofNat n)
  else if n % 2 = 1 then -(-x).pow (1 / ofNat n)
  else 0 / 0

/-- The `n`-th root, from the first guess `x / n`. -/
def Settings.root (settings : Settings) (x : Float) (n : Nat) : Float :=
  if x == 0 then 0
  else if n = 1 then x
  else
    let found := newton x n settings.rootTolerance settings.rootSteps (x / ofNat n)
    found.getD (directRoot x n)

/-- A power with a rational exponent: the root of the denominator, raised to the numerator and
rounded. -/
def Settings.rationalPower (settings : Settings) (base : Float) (exponent : Ratio) : Float :=
  let raised := repeatedProduct (settings.root base exponent.den.toNat) exponent.num.toInt.natAbs
  roundPlaces (if exponent.num.toInt < 0 then 1 / raised else raised) settings.places

@[simp] theorem Settings.root_one (settings : Settings) {x : Float} (h : (x == 0) = false) :
    settings.root x 1 = x := by
  simp [root, h]

end Calculator
