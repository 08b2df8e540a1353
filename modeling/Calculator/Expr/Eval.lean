import Calculator.Arithmetic.Root
import Calculator.Expr.Fraction
import Calculator.Text.Signs

/-! The value of an expression. Fractional exponents and operands side by side are turned into
texts that are read as expressions themselves; `read` is what reads them. -/

namespace Calculator

/-- A power whose exponent is no fraction. A whole exponent too large to be exact is left to the
power function. -/
def wholePower (base value : Float) (quote : Text) : Except Error Float :=
  match whole? value with
  | some n => .ok (integerPower base n)
  | none =>
    if isWhole value then .ok (base.pow value)
    else .error (.exponent (.notWhole value quote))

namespace Expr

variable (settings : Settings) (read : Text → Except Error Float) (source : Text)

/-- An operand as text, to be joined to a neighbour: a literal as it is written, anything else
as its value is. -/
def operandText (value : Except Error Float) : Expr → Except Error Text
  | literal _ span => .ok (span.text source)
  | _ => return Numeral.write (← value)

/-- The value of an expression, or the first error from left to right. An exponent is read as a
fraction where it can be, and evaluated only otherwise. -/
def eval : Expr → Except Error Float
  | literal value _ => .ok value
  | group inner _ => inner.eval
  | negate operand _ => return -(← operand.eval)
  | binary op left right _ => do
    let x ← left.eval
    if op = .pow then
      let quote := right.span.text source
      match Fraction.ofExponent? source right with
      | some fraction => return settings.rationalPower x (← fraction.value read quote)
      | none => wholePower x (← right.eval) quote
    else return op.apply x (← right.eval)
  | adjacent left right _ => do
    let first ← operandText source left.eval left
    let second ← operandText source right.eval right
    read (Text.normalizeSigns (first ++ second))

end Expr

end Calculator
