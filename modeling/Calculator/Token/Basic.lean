import Calculator.Operator
import Calculator.Span
import Calculator.Text.Signs

/-! Tokens, and tokens at their place in a text. -/

namespace Calculator

inductive Token where
  | number (value : Float)
  | operator (op : BinaryOp)
  | opening
  | closing
  deriving DecidableEq

namespace Token

/-- The token that a character is on its own. -/
def ofChar? : Char → Option Token
  | '(' => some opening
  | ')' => some closing
  | c => (BinaryOp.ofChar? c).map operator

def isOperator : Token → Bool
  | operator _ => true
  | _ => false

/-- A plus or minus, which may also stand before an operand. -/
def sign? : Token → Option Sign
  | operator .add => some .plus
  | operator .sub => some .minus
  | _ => none

/-- A number or an opening parenthesis, with which every operand begins but for its sign. -/
def beginsOperand : Token → Bool
  | number _ | opening => true
  | _ => false

end Token

/-- A token and where it stands. -/
structure Lexeme where
  token : Token
  span : Span
  deriving DecidableEq

end Calculator
