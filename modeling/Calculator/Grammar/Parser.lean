import Calculator.Error
import Calculator.Expr.Basic
import Calculator.Token.Basic

/-! Parsers of expressions from token lists. A parser that succeeds has taken at least one token,
so the loops that repeat one end. -/

namespace Calculator.Grammar

/-- What a parser finds: an expression and the tokens after it. -/
abbrev Reading := Except ParseError (Expr × List Lexeme)

structure Parser where
  run : List Lexeme → Reading
  shortens {tokens : List Lexeme} {e : Expr} {rest : List Lexeme} :
    run tokens = .ok (e, rest) → rest.length < tokens.length

theorem bind_eq_ok {ε α β : Type} {x : Except ε α} {f : α → Except ε β} {b : β} :
    (x >>= f) = .ok b ↔ ∃ a, x = .ok a ∧ f a = .ok b := by
  cases x with
  | error e => exact ⟨fun h => (nomatch h), fun ⟨_, h, _⟩ => (nomatch h)⟩
  | ok a => exact ⟨fun h => ⟨a, rfl, h⟩, fun ⟨_, h, hf⟩ => Except.ok.inj h ▸ hf⟩

theorem bind_eq_error {ε α β : Type} {x : Except ε α} {f : α → Except ε β} {error : ε} :
    (x >>= f) = .error error ↔ x = .error error ∨ ∃ a, x = .ok a ∧ f a = .error error := by
  cases x with
  | error e => simp [bind, Except.bind]
  | ok a => simp [bind, Except.bind]

namespace Parser

def fail (error : ParseError) : Parser where
  run _ := .error error
  shortens h := nomatch h

/-- The parser itself, built only when it is run. -/
def delay (p : Unit → Parser) : Parser where
  run tokens := (p ()).run tokens
  shortens h := (p ()).shortens h

@[simp] theorem run_fail (error : ParseError) (tokens : List Lexeme) :
    (fail error).run tokens = .error error := rfl

@[simp] theorem delay_eq (p : Unit → Parser) : delay p = p () := rfl

/-- Goes on after `left` for as long as `op` and another operand follow. -/
def foldFrom (operand : Parser) (op : BinaryOp) (left : Expr) : List Lexeme → Reading
  | [] => .ok (left, [])
  | t :: tokens =>
    if t.token = .operator op then
      match _h : operand.run tokens with
      | .error e => .error e
      | .ok (right, rest) => foldFrom operand op (.join op left right) rest
    else .ok (left, t :: tokens)
termination_by tokens => tokens.length
decreasing_by
  have := operand.shortens _h
  simp
  omega

/-- Goes on after `left` for as long as another operand follows with nothing between. -/
def besideFrom (operand : Parser) (left : Expr) : List Lexeme → Reading
  | [] => .ok (left, [])
  | t :: tokens =>
    if t.token.beginsOperand then
      match _h : operand.run (t :: tokens) with
      | .error e => .error e
      | .ok (right, rest) => besideFrom operand (.beside left right) rest
    else .ok (left, t :: tokens)
termination_by tokens => tokens.length
decreasing_by exact operand.shortens _h

@[simp] theorem foldFrom_nil (operand : Parser) (op : BinaryOp) (left : Expr) :
    operand.foldFrom op left [] = .ok (left, []) := by rw [foldFrom]

theorem foldFrom_cons (operand : Parser) (op : BinaryOp) (left : Expr) (t : Lexeme)
    (tokens : List Lexeme) :
    operand.foldFrom op left (t :: tokens) =
      if t.token = .operator op then do
        let (right, rest) ← operand.run tokens
        operand.foldFrom op (.join op left right) rest
      else .ok (left, t :: tokens) := by
  rw [foldFrom]
  cases operand.run tokens <;> rfl

@[simp] theorem besideFrom_nil (operand : Parser) (left : Expr) :
    operand.besideFrom left [] = .ok (left, []) := by rw [besideFrom]

theorem besideFrom_cons (operand : Parser) (left : Expr) (t : Lexeme) (tokens : List Lexeme) :
    operand.besideFrom left (t :: tokens) =
      if t.token.beginsOperand then do
        let (right, rest) ← operand.run (t :: tokens)
        operand.besideFrom (.beside left right) rest
      else .ok (left, t :: tokens) := by
  rw [besideFrom]
  cases operand.run (t :: tokens) <;> rfl

theorem length_le_of_foldFrom {operand : Parser} {op : BinaryOp} {left e : Expr}
    {tokens rest : List Lexeme} (h : operand.foldFrom op left tokens = .ok (e, rest)) :
    rest.length ≤ tokens.length := by
  fun_induction foldFrom operand op left tokens with
  | case1 => cases h; exact Nat.le_refl _
  | case2 => cases h
  | case3 left t tokens _ right rest' hrun ih =>
    have := operand.shortens hrun
    have := ih h
    simp
    omega
  | case4 => cases h; exact Nat.le_refl _

theorem length_le_of_besideFrom {operand : Parser} {left e : Expr} {tokens rest : List Lexeme}
    (h : operand.besideFrom left tokens = .ok (e, rest)) : rest.length ≤ tokens.length := by
  fun_induction besideFrom operand left tokens with
  | case1 => cases h; exact Nat.le_refl _
  | case2 => cases h
  | case3 left t tokens _ right rest' hrun ih =>
    have := operand.shortens hrun
    have := ih h
    omega
  | case4 => cases h; exact Nat.le_refl _

/-- Operands with `op` between them, grouped from the left. -/
def foldLeft (op : BinaryOp) (first next : Parser) : Parser where
  run tokens := do
    let (left, rest) ← first.run tokens
    next.foldFrom op left rest
  shortens h := by
    obtain ⟨⟨left, rest⟩, hfirst, hnext⟩ := bind_eq_ok.1 h
    exact Nat.lt_of_le_of_lt (length_le_of_foldFrom hnext) (first.shortens hfirst)

end Parser

end Calculator.Grammar
