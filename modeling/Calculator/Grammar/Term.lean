import Calculator.Grammar.Parser

/-! Terms: numbers and groups, alone or side by side, with an exponent and a sign. What a group,
a sign or a `^` encloses lies one level of nesting further in. -/

namespace Calculator.Grammar

/-- Where an operand stands. A sign in front of a number belongs to the number only in leading
position, so `-2^2` is the square of `-2` and `3*-2^2` takes the negative of `2^2`. -/
inductive Position where
  /-- First in the text or in a group. -/
  | leading
  /-- After an operator. -/
  | operand
  deriving DecidableEq, Repr

/-- The parsers one level further in. -/
structure Nested where
  /-- The inside of a group. -/
  expression : Parser
  /-- What a sign stands in front of. -/
  power : Parser
  /-- What follows a `^`, given the place of the power so far. -/
  exponent : Span → Parser

section

variable (source : Text) (nested : Nested)

/-- The rest of a group after its opening parenthesis. -/
def readGroup (opened : Span) : List Lexeme → Reading
  | [] => .error (.unmatchedParenthesis (opened.textFrom source))
  | t :: tokens =>
    if t.token = .closing then .error (.emptyGroup ((opened.cover t.span).text source))
    else do
      let (inner, rest) ← nested.expression.run (t :: tokens)
      match rest with
      | [] => .error (.unmatchedParenthesis (opened.textFrom source))
      | t :: rest =>
        if t.token = .closing then return (.group inner (opened.cover t.span), rest)
        else .error (.unmatchedParenthesis (t.span.textFrom source))

/-- A number or a group. -/
def readPrimary : List Lexeme → Reading
  | [] => .error (.malformedNumber [])
  | ⟨.number value, span⟩ :: tokens => .ok (.literal value span, tokens)
  | ⟨.opening, span⟩ :: tokens => readGroup source nested span tokens
  | t :: _ => .error (.malformedNumber (t.span.textFrom source))

theorem length_le_of_readGroup {opened : Span} {tokens rest : List Lexeme} {e : Expr}
    (h : readGroup source nested opened tokens = .ok (e, rest)) :
    rest.length ≤ tokens.length := by
  cases tokens with
  | nil => cases h
  | cons t tokens =>
    rw [readGroup] at h
    split at h
    · cases h
    · obtain ⟨⟨inner, rest'⟩, hinner, h⟩ := bind_eq_ok.1 h
      have := nested.expression.shortens hinner
      cases rest' with
      | nil => cases h
      | cons t rest' =>
        dsimp only at h
        split at h
        · cases h; simp at this ⊢; omega
        · cases h

theorem length_lt_of_readPrimary {tokens rest : List Lexeme} {e : Expr}
    (h : readPrimary source nested tokens = .ok (e, rest)) : rest.length < tokens.length := by
  unfold readPrimary at h
  split at h
  · cases h
  · cases h; simp
  · exact Nat.lt_succ_of_le (length_le_of_readGroup source nested h)
  · cases h

def primary : Parser where
  run := readPrimary source nested
  shortens := length_lt_of_readPrimary source nested

/-- The exponent of `base`, if a `^` follows. -/
def readExponent (base : Expr) : List Lexeme → Reading
  | [] => .ok (base, [])
  | t :: tokens =>
    if t.token = .operator .pow then do
      let (exponent, rest) ← (nested.exponent (base.span.cover t.span)).run tokens
      return (.join .pow base exponent, rest)
    else .ok (base, t :: tokens)

/-- What may follow the first operand of a power: more of them side by side, and an exponent. -/
def readPower (first : Expr) (tokens : List Lexeme) : Reading := do
  let (base, rest) ← (primary source nested).besideFrom first tokens
  readExponent nested base rest

theorem length_le_of_readPower {first e : Expr} {tokens rest : List Lexeme}
    (h : readPower source nested first tokens = .ok (e, rest)) : rest.length ≤ tokens.length := by
  obtain ⟨⟨base, rest'⟩, hbase, h⟩ := bind_eq_ok.1 h
  have hle := Parser.length_le_of_besideFrom hbase
  cases rest' with
  | nil => cases h; exact hle
  | cons t rest' =>
    dsimp only [readExponent] at h
    split at h
    · obtain ⟨⟨exponent, rest''⟩, hexp, h⟩ := bind_eq_ok.1 h
      have := (nested.exponent _).shortens hexp
      cases h
      simp only [List.length_cons] at hle ⊢
      omega
    · cases h; exact hle

/-- Operands side by side, and an exponent of them all. -/
def power : Parser where
  run tokens := do
    let (first, rest) ← readPrimary source nested tokens
    readPower source nested first rest
  shortens h := by
    obtain ⟨⟨first, rest⟩, hfirst, h⟩ := bind_eq_ok.1 h
    exact Nat.lt_of_le_of_lt (length_le_of_readPower source nested h)
      (length_lt_of_readPrimary source nested hfirst)

/-- What a sign at `place` stands in front of. A plus leaves no trace in the tree. -/
def readSigned (position : Position) (sign : Sign) (place : Span) : List Lexeme → Reading
  | ⟨.number value, span⟩ :: tokens =>
    if position = .leading then
      readPower source nested (.literal (sign.apply value) (place.cover span)) tokens
    else readOperand (⟨.number value, span⟩ :: tokens)
  | tokens => readOperand tokens
where
  readOperand (tokens : List Lexeme) : Reading := do
    let (operand, rest) ← nested.power.run tokens
    match sign with
    | .plus => return (operand, rest)
    | .minus => return (.negate operand (place.cover operand.span), rest)

/-- A power with or without a sign. -/
def readUnary (position : Position) : List Lexeme → Reading
  | [] => (power source nested).run []
  | t :: tokens =>
    match t.token.sign? with
    | none => (power source nested).run (t :: tokens)
    | some sign => readSigned source nested position sign t.span tokens

theorem length_le_of_readSigned {position : Position} {sign : Sign} {place : Span}
    {tokens rest : List Lexeme} {e : Expr}
    (h : readSigned source nested position sign place tokens = .ok (e, rest)) :
    rest.length ≤ tokens.length := by
  have operand {tokens : List Lexeme}
      (h : readSigned.readOperand nested sign place tokens = .ok (e, rest)) :
      rest.length ≤ tokens.length := by
    obtain ⟨⟨operand, rest'⟩, hoperand, h⟩ := bind_eq_ok.1 h
    have := nested.power.shortens hoperand
    cases sign <;> cases h <;> omega
  unfold readSigned at h
  split at h
  · split at h
    · exact Nat.le_succ_of_le (length_le_of_readPower source nested h)
    · exact operand h
  · exact operand h

def unary (position : Position) : Parser where
  run := readUnary source nested position
  shortens {tokens _ _} h := by
    unfold readUnary at h
    split at h
    · exact (power source nested).shortens h
    · split at h
      · exact (power source nested).shortens h
      · exact Nat.lt_succ_of_le (length_le_of_readSigned source nested h)

/-- What stands after a `^`: a power with or without a sign. -/
def exponent (base : Span) : Parser where
  run
    | [] => .error (.missingExponent (base.text source))
    | t :: tokens =>
      if t.token.sign?.isSome || t.token.beginsOperand then
        (unary source nested .operand).run (t :: tokens)
      else .error (.missingExponent (base.text source))
  shortens {tokens _ _} h := by
    split at h
    · cases h
    · split at h
      · exact (unary source nested .operand).shortens h
      · cases h

end

end Calculator.Grammar
