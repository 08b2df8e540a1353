/-! What a calculator can be told to do otherwise. -/

namespace Calculator

/-- How large an expression may be. -/
structure Limits where
  /-- Levels of groups, signs and exponents inside each other. -/
  nesting : Nat := 256
  /-- Operators in all. -/
  operators : Nat := 4096

structure Settings extends Limits where
  /-- Two steps of a root that differ by less end the search for it. -/
  rootTolerance : Float := 1e-10
  rootSteps : Nat := 1000
  /-- Decimal places of a power with a fractional exponent. -/
  places : Int := 4

end Calculator
