import Calculator.Operator
import Calculator.Span

/-! Expressions as trees. Each node knows where it stands in the text, as exponents and operands
side by side are read again from there. -/

namespace Calculator

inductive Expr where
  /-- A number, with the sign that belongs to it. -/
  | literal (value : Float) (span : Span)
  /-- An expression in parentheses. -/
  | group (inner : Expr) (span : Span)
  | negate (operand : Expr) (span : Span)
  | binary (op : BinaryOp) (left right : Expr) (span : Span)
  /-- Two operands without an operator between them. -/
  | adjacent (left right : Expr) (span : Span)
  deriving DecidableEq

namespace Expr

def span : Expr → Span
  | literal _ span | group _ span | negate _ span | binary _ _ _ span | adjacent _ _ span => span

/-- The binary node over its two operands. -/
def join (op : BinaryOp) (left right : Expr) : Expr :=
  binary op left right (left.span.cover right.span)

/-- Two operands side by side. -/
def beside (left right : Expr) : Expr := adjacent left right (left.span.cover right.span)

end Expr

end Calculator
