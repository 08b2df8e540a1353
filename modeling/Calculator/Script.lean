import Calculator.Outcome

/-! Scripts: one expression a line, each evaluated on its own. Empty lines and comments are
skipped but counted. -/

namespace Calculator.Script

/-- The lines of a text. A newline ends a line, with or without a carriage return in front; the
last line may go without. -/
def lines : Text → List Text
  | [] => []
  | '\n' :: text => [] :: lines text
  | '\r' :: '\n' :: text => [] :: lines text
  | c :: text =>
    match lines text with
    | [] => [[c]]
    | line :: rest => (c :: line) :: rest

/-- A line without expression: nothing but blanks, or a comment behind `#`. -/
def isSkipped (line : Text) : Bool :=
  match line.trimBlanks with
  | [] => true
  | c :: _ => c == '#'

/-- What the line with number `n` leaves behind. -/
def runLine (n : Nat) (line : Text) : Outcome :=
  if isSkipped line then {}
  else .ofResult ("line " ++ n.repr ++ ": ") (evaluate {} line.trimBlanks)

/-- What the lines leave behind, numbered from `n` on. -/
def runLines (n : Nat) : List Text → Outcome
  | [] => {}
  | line :: rest => runLine n line ++ runLines (n + 1) rest

/-- What a script leaves behind. -/
def run (script : Text) : Outcome := runLines 1 (lines script)

end Calculator.Script
