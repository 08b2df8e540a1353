import Calculator.Error
import Calculator.Token.Basic

/-! Cutting a text into tokens. Digits and points in a row are one token, a number; every other
token is a single character. -/

namespace Calculator

/-- Digits and points, of which numbers are made. -/
def isNumeric (c : Char) : Bool := c.isDigit || c == '.'

/-- The tokens of a text that begins at the given byte offset. -/
def scanFrom (start : Nat) : Text → Except ParseError (List Lexeme)
  | [] => .ok []
  | c :: text =>
    if isNumeric c then
      let run := c :: text.takeWhile isNumeric
      match Numeral.read? run with
      | none => .error (.malformedNumber run)
      | some value => do
        let stop := start + run.length
        let rest ← scanFrom stop (text.dropWhile isNumeric)
        return ⟨.number value, ⟨start, stop⟩⟩ :: rest
    else
      match Token.ofChar? c with
      | none => .error (.malformedNumber [c])
      | some token => do
        let rest ← scanFrom (start + 1) text
        return ⟨token, ⟨start, start + 1⟩⟩ :: rest
termination_by text => text.length
decreasing_by
  · have := (List.dropWhile_sublist isNumeric : (text.dropWhile isNumeric).Sublist text).length_le
    simp
    omega
  · simp

/-- The tokens of a text, or the first run or character that is none. -/
def scan (text : Text) : Except ParseError (List Lexeme) := scanFrom 0 text

end Calculator
