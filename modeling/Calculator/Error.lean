import Calculator.Numeral.Written

/-! What can go wrong, with the piece of text that shows it, and how the user is told. -/

namespace Calculator

/-- Why a text is no expression. -/
inductive ParseError where
  /-- A parenthesis without its partner, with all that follows it. -/
  | unmatchedParenthesis (text : Text)
  /-- Parentheses around nothing. -/
  | emptyGroup (text : Text)
  /-- Something else stands where a number is expected; nothing when the text ends there. -/
  | malformedNumber (text : Text)
  /-- A power, up to and including the `^` that nothing usable follows. -/
  | missingExponent (text : Text)
  | nestingTooDeep (limit : Nat)
  | tooManyOperators (count limit : Nat)
  deriving DecidableEq, Repr

/-- Why a power has no value. All other arithmetic has one. -/
inductive ExponentError where
  /-- An exponent that is not a whole number and no fraction. -/
  | notWhole (value : Float) (text : Text)
  /-- A fraction with a side that is not a whole number. -/
  | sideNotWhole (text : Text)
  /-- A fraction whose denominator is zero. -/
  | zeroDenominator (text : Text)
  deriving DecidableEq, Repr

inductive Error where
  | parse (error : ParseError)
  | exponent (error : ExponentError)
  deriving DecidableEq, Repr

/-- A message about a piece of the text. -/
def messageAt (text : Text) (message : String) : String :=
  "Error at '" ++ String.ofList text ++ "': " ++ message

def ParseError.message : ParseError → String
  | unmatchedParenthesis text => messageAt text "Unmatched parenthesis."
  | emptyGroup text => messageAt text "Parentheses enclose no expression."
  | malformedNumber [] => "Error: Expected a number but the expression ended."
  | malformedNumber text => messageAt text "Not a valid number."
  | missingExponent text => messageAt text "Missing exponent after '^'."
  | nestingTooDeep limit =>
    "Error: Expression is nested deeper than the limit of " ++ limit.repr ++ "."
  | tooManyOperators count limit =>
    "Error: Expression has " ++ count.repr ++ " operators, but the limit is " ++ limit.repr ++ "."

def ExponentError.message : ExponentError → String
  | notWhole value text =>
    messageAt text ("Exponent " ++ String.ofList (Numeral.write value) ++
      " is not an integer. Use a fraction such as (1/2) for roots.")
  | sideNotWhole text =>
    messageAt text "Numerator and denominator of a fractional exponent must be integers."
  | zeroDenominator text => messageAt text "Division by zero in exponent."

def Error.message : Error → String
  | parse error => error.message
  | exponent error => error.message

/-- The piece of text that an error shows. -/
def ParseError.text? : ParseError → Option Text
  | unmatchedParenthesis text | emptyGroup text | malformedNumber text | missingExponent text =>
    some text
  | nestingTooDeep _ | tooManyOperators .. => none

def ExponentError.text : ExponentError → Text
  | notWhole _ text | sideNotWhole text | zeroDenominator text => text

def Error.text? : Error → Option Text
  | parse error => error.text?
  | exponent error => some error.text

end Calculator
