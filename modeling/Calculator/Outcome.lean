import Calculator.Evaluate

/-! What a run of the program leaves behind. -/

namespace Calculator

/-- What was printed on the two streams, and whether anything failed. -/
structure Outcome where
  stdout : String := ""
  stderr : String := ""
  failed : Bool := false
  deriving DecidableEq, Repr

namespace Outcome

/-- One outcome after the other. -/
def append (a b : Outcome) : Outcome :=
  ⟨a.stdout ++ b.stdout, a.stderr ++ b.stderr, a.failed || b.failed⟩

instance : Append Outcome := ⟨append⟩

/-- The exit status. -/
def status (outcome : Outcome) : Nat := if outcome.failed then 1 else 0

/-- A line that says what went wrong. -/
def failure (message : String) : Outcome := { stderr := message ++ "\n", failed := true }

/-- A value as a line of its own; an error likewise, behind `label`. -/
def ofResult (label : String) : Except Error Float → Outcome
  | .ok value => { stdout := String.ofList (Numeral.write value) ++ "\n" }
  | .error e => failure (label ++ e.message)

/-- What evaluating one expression leaves behind. -/
def ofExpression (text : Text) : Outcome := ofResult "" (evaluate {} text)

/-- What is left behind where the file of that name cannot be read. -/
def unreadable (name : String) : Outcome :=
  failure ("Failed to read the input file '" ++ name ++ "'. Perhaps this file does not exist?")

end Outcome

end Calculator
