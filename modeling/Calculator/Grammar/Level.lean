import Calculator.Grammar.Term

/-! Levels of precedence. Each of the four operations binds tighter than the one before it:
addition, subtraction, multiplication, division. So `a+b-c` is `a+(b-c)` and `a*b/c` is
`a*(b/c)`. Within a level operands are grouped from the left. -/

namespace Calculator.Grammar

section

variable (source : Text) (nested : Nested)

/-- Terms joined by the given operators, each of which binds tighter than those before it. -/
def level : List BinaryOp → Position → Parser
  | [], position => unary source nested position
  | op :: tighter, position => .foldLeft op (level tighter position) (level tighter .operand)

/-- The operators of division and whatever binds tighter; the next levels add one each. -/
def divisive : List BinaryOp := [.div]

def multiplicative : List BinaryOp := .mul :: divisive

def subtractive : List BinaryOp := .sub :: multiplicative

def additive : List BinaryOp := .add :: subtractive

/-- A whole expression, as it stands in the text or in a group. -/
def expression : Parser := level source nested additive .leading

end

/-- The parsers one level further in, where `room` more levels are allowed out of `limit`. -/
def nested (source : Text) (limit : Nat) : (room : Nat) → Nested
  | 0 =>
    let fail := Parser.fail (.nestingTooDeep limit)
    { expression := fail, power := fail, exponent := fun _ => fail }
  | room + 1 =>
    { expression := .delay fun _ => expression source (nested source limit room)
      power := .delay fun _ => power source (nested source limit room)
      exponent := fun base => .delay fun _ => exponent source (nested source limit room) base }

end Calculator.Grammar
