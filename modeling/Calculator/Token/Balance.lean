import Calculator.Error
import Calculator.Token.Basic

/-! What can be told of a token list before its structure is read: the number of operators, and
whether its parentheses match. -/

namespace Calculator

def operatorCount (tokens : List Lexeme) : Nat := tokens.countP (·.token.isOperator)

/-- The first parenthesis without a partner: a closing one that nothing opened, or else the
innermost that is still open at the end. The first argument holds the open ones. -/
def unmatched? : List Span → List Lexeme → Option Span
  | opened, [] => opened.head?
  | opened, ⟨.opening, span⟩ :: tokens => unmatched? (span :: opened) tokens
  | [], ⟨.closing, span⟩ :: _ => some span
  | _ :: opened, ⟨.closing, _⟩ :: tokens => unmatched? opened tokens
  | opened, _ :: tokens => unmatched? opened tokens

end Calculator
