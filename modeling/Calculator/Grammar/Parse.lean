import Calculator.Grammar.Level
import Calculator.Settings
import Calculator.Token.Balance
import Calculator.Token.Scan

/-! From the tokens of a text to its expression. -/

namespace Calculator

/-- The expression that all the tokens make up. Their number of operators and their parentheses
are checked beforehand. Errors quote `source`. -/
def parse (limits : Limits) (source : Text) (tokens : List Lexeme) : Except ParseError Expr :=
  if limits.operators < operatorCount tokens then
    .error (.tooManyOperators (operatorCount tokens) limits.operators)
  else
    match unmatched? [] tokens with
    | some span => .error (.unmatchedParenthesis (span.textFrom source))
    | none => do
      let nested := Grammar.nested source limits.nesting limits.nesting
      let (e, rest) ← (Grammar.expression source nested).run tokens
      match rest with
      | [] => return e
      | t :: _ => .error (.unmatchedParenthesis (t.span.textFrom source))

/-- The expression that a text writes. -/
def parseText (limits : Limits) (text : Text) : Except ParseError Expr := do
  parse limits text (← scan text)

end Calculator
