import Calculator.Text.Basic

/-! Runs of signs. Two neighbouring signs read as one, their product, and passes over the text
join neighbours until none are left. -/

namespace Calculator

inductive Sign where
  | plus
  | minus
  deriving DecidableEq, Repr

namespace Sign

def ofChar? : Char → Option Sign
  | '+' => some plus
  | '-' => some minus
  | _ => none

def toChar : Sign → Char
  | plus => '+'
  | minus => '-'

/-- The sign of a product. -/
def mul (a b : Sign) : Sign := if a = b then plus else minus

/-- Puts the sign in front of a number. -/
def apply : Sign → Float → Float
  | plus, x => x
  | minus, x => -x

@[simp] theorem ofChar?_toChar (s : Sign) : ofChar? s.toChar = some s := by cases s <;> rfl

theorem ofChar?_eq_some_iff {c : Char} {s : Sign} : ofChar? c = some s ↔ c = s.toChar := by
  constructor
  · intro h
    unfold ofChar? at h
    split at h <;> cases h <;> rfl
  · rintro rfl
    simp

end Sign

namespace Text

/-- One pass from left to right: neighbouring signs are joined two by two. -/
def joinSigns : Text → Text
  | a :: b :: text =>
    match Sign.ofChar? a, Sign.ofChar? b with
    | some s, some t => (s.mul t).toChar :: joinSigns text
    | _, _ => a :: joinSigns (b :: text)
  | text => text

/-- Joins signs, pass after pass, until a pass finds no two neighbours: each run of signs ends
as one sign. -/
def normalizeSigns (text : Text) : Text :=
  if (joinSigns text).length < text.length then normalizeSigns (joinSigns text)
  else joinSigns text
termination_by text.length

theorem length_joinSigns_le (text : Text) : (joinSigns text).length ≤ text.length := by
  fun_induction joinSigns text with
  | case1 a b text s t _ _ ih =>
    simp only [List.length_cons]
    omega
  | case2 a b text _ ih => exact Nat.succ_le_succ ih
  | case3 => exact Nat.le_refl _

/-- A pass that joins nothing changes nothing. -/
theorem joinSigns_eq_self {text : Text} (h : text.length ≤ (joinSigns text).length) :
    joinSigns text = text := by
  fun_induction joinSigns text with
  | case1 a b text s t _ _ ih =>
    have := length_joinSigns_le text
    simp at h
    omega
  | case2 a b text _ ih => rw [ih (by simpa using h)]
  | case3 => rfl

end Text

end Calculator
