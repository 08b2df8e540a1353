import Calculator.Script

/-! The command line: one expression, or with `--file` the name of a script. -/

namespace Calculator

/-- What the arguments ask for. -/
inductive Command where
  | expression (text : String)
  | script (file : String)

/-- Reads the arguments: options, which end at `--`, and the one argument that is none. Nothing is
printed for `--verbose` that would not be printed without. -/
def Command.ofArgs? (file : Bool) (contents : Option String) : List String → Option Command
  | [] => contents.map fun c => if file then script c else expression c
  | arg :: rest =>
    if arg = "--" then
      match contents.toList ++ rest with
      | [c] => some (if file then script c else expression c)
      | _ => none
    else if arg = "--file" ∨ arg = "-f" then ofArgs? true contents rest
    else if arg = "--verbose" ∨ arg = "-v" then ofArgs? file contents rest
    else if arg.startsWith "-" ∨ contents.isSome then none
    else ofArgs? file (some arg) rest

def Command.run : Command → IO Outcome
  | expression text => return .ofExpression text.toList
  | script file => do
    try return Script.run (← IO.FS.readFile file).toList
    catch _ => return .unreadable file

end Calculator

def main (args : List String) : IO UInt32 := do
  match Calculator.Command.ofArgs? false none args with
  | none =>
    IO.eprintln "Usage: calculator [--file] [--verbose] [--] CONTENTS"
    return 2
  | some command =>
    let outcome ← command.run
    IO.print outcome.stdout
    IO.eprint outcome.stderr
    return outcome.status.toUInt32
