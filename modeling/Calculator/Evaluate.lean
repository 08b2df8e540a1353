import Calculator.Expr.Eval
import Calculator.Grammar.Parse
import Calculator.Text.Blank

/-! From a text to its value. -/

namespace Calculator

/-- The value of a text as it stands, without blanks and runs of signs. What its expression
gives to be read in turn has fewer opening parentheses than the text; nothing else is read. -/
def evalText (settings : Settings) (text : Text) : Except Error Float :=
  match parseText settings.toLimits text with
  | .error e => .error (.parse e)
  | .ok e =>
    let read := fun inner =>
      if inner.count '(' < text.count '(' then evalText settings inner
      else .error (.parse (.nestingTooDeep settings.nesting))
    e.eval settings read text
termination_by text.count '('

/-- The value of an expression whose spans refer to `source`. -/
def Expr.value (settings : Settings) (source : Text) (e : Expr) : Except Error Float :=
  e.eval settings (evalText settings) source

/-- The value of what the user wrote: blanks count for nothing, and runs of signs for one. -/
def evaluate (settings : Settings) (text : Text) : Except Error Float :=
  evalText settings text.stripBlanks.normalizeSigns

end Calculator
