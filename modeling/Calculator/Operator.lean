/-! The operators between two operands. -/

namespace Calculator

/-- Listed from the loosest binding to the tightest. -/
inductive BinaryOp where
  | add
  | sub
  | mul
  | div
  | pow
  deriving DecidableEq, Repr

namespace BinaryOp

def toChar : BinaryOp → Char
  | add => '+'
  | sub => '-'
  | mul => '*'
  | div => '/'
  | pow => '^'

def ofChar? : Char → Option BinaryOp
  | '+' => some add
  | '-' => some sub
  | '*' => some mul
  | '/' => some div
  | '^' => some pow
  | _ => none

/-- Arithmetic on doubles, which never fails: a division by zero is infinite or no number. The
power is the plain one of two doubles. -/
def apply : BinaryOp → Float → Float → Float
  | add, x, y => x + y
  | sub, x, y => x - y
  | mul, x, y => x * y
  | div, x, y => x / y
  | pow, x, y => x.pow y

@[simp] theorem ofChar?_toChar (op : BinaryOp) : ofChar? op.toChar = some op := by
  cases op <;> rfl

theorem ofChar?_eq_some_iff {c : Char} {op : BinaryOp} : ofChar? c = some op ↔ c = op.toChar := by
  constructor
  · intro h
    unfold ofChar? at h
    split at h <;> cases h <;> rfl
  · rintro rfl
    simp

end BinaryOp

end Calculator
