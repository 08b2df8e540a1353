import Calculator.Arithmetic.Ratio
import Calculator.Arithmetic.Whole
import Calculator.Error
import Calculator.Expr.Basic

/-! Exponents written as a fraction, such as `(2/3)`, `(1+1/2)` and `-(1/2)`. The two sides are
the texts before and after the first slash of the group that no inner parentheses enclose, so
`(1+1/2)` stands for two halves. Each side is read as an expression of its own. -/

namespace Calculator

structure Fraction where
  numerator : Text
  denominator : Text
  /-- A minus stands before the group. -/
  negated : Bool
  deriving DecidableEq, Repr

namespace Fraction

/-- The text between an opening parenthesis at its start and a closing one at its end. -/
def inside? : Text → Option Text
  | '(' :: text => if text.getLast? = some ')' then some text.dropLast else none
  | _ => none

/-- How many parentheses are open after `c`; a closing one too many counts for nothing. -/
def depthAfter (depth : Nat) (c : Char) : Nat :=
  if c = '(' then depth + 1 else if c = ')' then depth - 1 else depth

/-- Splits at the first slash outside parentheses, when `depth` of them are open at the start. -/
def splitSlash? (depth : Nat) : Text → Option (Text × Text)
  | [] => none
  | c :: text =>
    if c = '/' ∧ depth = 0 then some ([], text)
    else (splitSlash? (depthAfter depth c) text).map fun (before, after) => (c :: before, after)

/-- The fraction between the parentheses at `span`. -/
def ofGroup? (negated : Bool) (span : Span) (source : Text) : Option Fraction := do
  let inside ← inside? (span.text source)
  let (numerator, denominator) ← splitSlash? 0 inside
  return { numerator, denominator, negated }

/-- The fraction that an exponent writes: a group with a slash, or the negative of one. -/
def ofExponent? (source : Text) : Expr → Option Fraction
  | .group _ span => ofGroup? false span source
  | .negate (.group _ span) _ => ofGroup? true span source
  | _ => none

/-- The whole number that one side of the exponent `quote` comes to. -/
def side (read : Text → Except Error Float) (quote text : Text) : Except Error Int := do
  match whole? (← read text) with
  | some n => return n
  | none => .error (.exponent (.sideNotWhole quote))

/-- The ratio that the fraction stands for, in lowest terms. -/
def value (fraction : Fraction) (read : Text → Except Error Float) (quote : Text) :
    Except Error Ratio := do
  let numerator ← side read quote fraction.numerator
  let denominator ← side read quote fraction.denominator
  if denominator = 0 then .error (.exponent (.zeroDenominator quote))
  else
    match Ratio.reduce? fraction.negated numerator denominator with
    | some ratio => return ratio
    | none => .error (.exponent (.sideNotWhole quote))

theorem splitSlash?_append {depth : Nat} {text before after : Text}
    (h : splitSlash? depth text = some (before, after)) : before ++ '/' :: after = text := by
  fun_induction splitSlash? depth text generalizing before with
  | case1 => cases h
  | case2 depth c text hc => cases h; simp [hc.1]
  | case3 depth c text _ ih =>
    obtain ⟨⟨b, a⟩, hs, heq⟩ := Option.map_eq_some_iff.1 h
    cases heq
    simp [ih hs]

end Fraction

end Calculator
