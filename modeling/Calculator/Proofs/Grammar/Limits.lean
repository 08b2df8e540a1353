import Calculator.Grammar.Parse

/-! Parsing under two limits. Main statement: where the narrower limits are enough to tell what a
list is, an expression or none for some other reason, the wider ones lead to the same result. -/

namespace Calculator

/-- The error tells that an expression is too large, not what is wrong with it. -/
def ParseError.IsLimit : ParseError → Prop
  | nestingTooDeep _ | tooManyOperators _ _ => True
  | _ => False

/-- The two results are the same, or the first one is an error of the given kind. -/
def SameUnless {ε α : Type} (kind : ε → Prop) (x y : Except ε α) : Prop :=
  x = y ∨ ∃ error, x = .error error ∧ kind error

namespace SameUnless

variable {ε α β : Type} {kind kind' : ε → Prop} {x y : Except ε α}

theorem refl (x : Except ε α) : SameUnless kind x x := .inl rfl

theorem of_kind {error : ε} (h : kind error) (y : Except ε α) :
    SameUnless kind (.error error) y := .inr ⟨error, rfl, h⟩

theorem mono (h : SameUnless kind x y) (hkind : ∀ error, kind error → kind' error) :
    SameUnless kind' x y := by
  rcases h with rfl | ⟨error, rfl, herror⟩
  · exact .refl _
  · exact .of_kind (hkind error herror) _

theorem bind {f g : α → Except ε β} (h : SameUnless kind x y)
    (hf : ∀ a, x = .ok a → SameUnless kind (f a) (g a)) : SameUnless kind (x >>= f) (y >>= g) := by
  rcases h with rfl | ⟨error, rfl, herror⟩
  · cases x with
    | error error => exact .refl _
    | ok a => exact hf a rfl
  · exact .of_kind herror _

theorem eq_ok {a : α} (h : SameUnless kind (.ok a) y) : y = .ok a := by
  rcases h with h | ⟨error, herror, _⟩
  · exact h.symm
  · cases herror

theorem eq (h : SameUnless kind x y) (hx : ∀ error, x = .error error → ¬kind error) : x = y := by
  rcases h with h | ⟨error, herror, hkind⟩
  · exact h
  · exact absurd hkind (hx error herror)

end SameUnless

namespace Grammar

/-- Two parsers, of which the first one may give up with an error of the given kind. -/
def Parser.Within (kind : ParseError → Prop) (p q : Parser) : Prop :=
  ∀ tokens, SameUnless kind (p.run tokens) (q.run tokens)

/-- The same of the parsers one level further in. -/
structure Nested.Within (kind : ParseError → Prop) (few many : Nested) : Prop where
  expression : few.expression.Within kind many.expression
  power : few.power.Within kind many.power
  exponent (base : Span) : (few.exponent base).Within kind (many.exponent base)

namespace Parser.Within

variable {kind : ParseError → Prop} {p q : Parser} {left : Expr}

theorem foldFrom (h : p.Within kind q) (op : BinaryOp) (tokens : List Lexeme) :
    SameUnless kind (p.foldFrom op left tokens) (q.foldFrom op left tokens) := by
  induction hlength : tokens.length using Nat.strongRecOn generalizing left tokens with
  | ind n ih =>
    cases tokens with
    | nil =>
      rw [Parser.foldFrom_nil, Parser.foldFrom_nil]
      exact .refl _
    | cons t tokens =>
      rw [Parser.foldFrom_cons, Parser.foldFrom_cons]
      by_cases ht : t.token = .operator op
      · rw [if_pos ht, if_pos ht]
        refine (h tokens).bind fun (right, rest) hrun => ih _ ?_ rest rfl
        have := p.shortens hrun
        rw [← hlength, List.length_cons]
        omega
      · rw [if_neg ht, if_neg ht]
        exact .refl _

theorem besideFrom (h : p.Within kind q) (tokens : List Lexeme) :
    SameUnless kind (p.besideFrom left tokens) (q.besideFrom left tokens) := by
  induction hlength : tokens.length using Nat.strongRecOn generalizing left tokens with
  | ind n ih =>
    cases tokens with
    | nil =>
      rw [Parser.besideFrom_nil, Parser.besideFrom_nil]
      exact .refl _
    | cons t tokens =>
      rw [Parser.besideFrom_cons, Parser.besideFrom_cons]
      by_cases ht : t.token.beginsOperand
      · rw [if_pos ht, if_pos ht]
        refine (h (t :: tokens)).bind fun (right, rest) hrun => ih _ ?_ rest rfl
        rw [← hlength]
        exact p.shortens hrun
      · rw [if_neg ht, if_neg ht]
        exact .refl _

theorem foldLeft {p' q' : Parser} (h : p.Within kind q) (h' : p'.Within kind q') (op : BinaryOp) :
    (Parser.foldLeft op p p').Within kind (.foldLeft op q q') :=
  fun tokens => (h tokens).bind fun (_, rest) _ => h'.foldFrom op rest

end Parser.Within

section

variable {kind : ParseError → Prop} {source : Text} {few many : Nested}

theorem readGroup_within (h : few.Within kind many) (opened : Span) (tokens : List Lexeme) :
    SameUnless kind (readGroup source few opened tokens)
      (readGroup source many opened tokens) := by
  cases tokens with
  | nil => exact .refl _
  | cons t tokens =>
    rw [readGroup, readGroup]
    by_cases ht : t.token = .closing
    · rw [if_pos ht, if_pos ht]
      exact .refl _
    · rw [if_neg ht, if_neg ht]
      exact (h.expression _).bind fun _ _ => .refl _

theorem primary_within (h : few.Within kind many) :
    (primary source few).Within kind (primary source many) := by
  intro tokens
  change SameUnless _ (readPrimary source few tokens) (readPrimary source many tokens)
  unfold readPrimary
  split
  · exact .refl _
  · exact .refl _
  · exact readGroup_within h _ _
  · exact .refl _

theorem readExponent_within (h : few.Within kind many) (base : Expr) (tokens : List Lexeme) :
    SameUnless kind (readExponent few base tokens)
      (readExponent many base tokens) := by
  cases tokens with
  | nil => exact .refl _
  | cons t tokens =>
    rw [readExponent, readExponent]
    by_cases ht : t.token = .operator .pow
    · rw [if_pos ht, if_pos ht]
      exact (h.exponent _ _).bind fun _ _ => .refl _
    · rw [if_neg ht, if_neg ht]
      exact .refl _

theorem readPower_within (h : few.Within kind many) (first : Expr) (tokens : List Lexeme) :
    SameUnless kind (readPower source few first tokens)
      (readPower source many first tokens) :=
  ((primary_within h).besideFrom tokens).bind fun (base, rest) _ => readExponent_within h base rest

theorem power_within (h : few.Within kind many) :
    (power source few).Within kind (power source many) :=
  fun tokens => (primary_within h tokens).bind fun (first, rest) _ => readPower_within h first rest

theorem readOperand_within (h : few.Within kind many) (sign : Sign) (place : Span)
    (tokens : List Lexeme) :
    SameUnless kind (readSigned.readOperand few sign place tokens)
      (readSigned.readOperand many sign place tokens) :=
  (h.power tokens).bind fun _ _ => .refl _

theorem readSigned_within (h : few.Within kind many) (position : Position) (sign : Sign)
    (place : Span) (tokens : List Lexeme) :
    SameUnless kind (readSigned source few position sign place tokens)
      (readSigned source many position sign place tokens) := by
  unfold readSigned
  split
  · split
    · exact readPower_within h _ _
    · exact readOperand_within h ..
  · exact readOperand_within h ..

theorem unary_within (h : few.Within kind many) (position : Position) :
    (unary source few position).Within kind (unary source many position) := by
  intro tokens
  change SameUnless _ (readUnary source few position tokens) (readUnary source many position tokens)
  unfold readUnary
  split
  · exact power_within h _
  · split
    · exact power_within h _
    · exact readSigned_within h ..

theorem exponent_within (h : few.Within kind many) (base : Span) :
    (exponent source few base).Within kind (exponent source many base) := by
  intro tokens
  cases tokens with
  | nil => exact .refl _
  | cons t tokens =>
    change SameUnless _ (if _ then _ else _) (if _ then _ else _)
    by_cases ht : t.token.sign?.isSome || t.token.beginsOperand
    · rw [if_pos ht, if_pos ht]
      exact unary_within h .operand _
    · rw [if_neg ht, if_neg ht]
      exact .refl _

theorem level_within (h : few.Within kind many) (ops : List BinaryOp) (position : Position) :
    (level source few ops position).Within kind (level source many ops position) := by
  induction ops generalizing position with
  | nil => exact unary_within h position
  | cons op ops ih => exact (ih position).foldLeft (ih .operand) op

end

/-- With more levels left, out of another limit. -/
theorem nested_within (source : Text) {limit limit' room room' : Nat} (h : room ≤ room') :
    (nested source limit room).Within (· = .nestingTooDeep limit) (nested source limit' room') := by
  induction room generalizing room' with
  | zero =>
    have hfail (q : Parser) :
        (Parser.fail (.nestingTooDeep limit)).Within (· = .nestingTooDeep limit) q :=
      fun _ => .inr ⟨_, rfl, rfl⟩
    exact ⟨hfail _, hfail _, fun _ => hfail _⟩
  | succ room ih =>
    cases room' with
    | zero => omega
    | succ room' =>
      have hn := ih (Nat.le_of_succ_le_succ h)
      exact ⟨level_within hn additive .leading, power_within hn, exponent_within hn⟩

theorem expression_within (source : Text) {limit limit' room room' : Nat} (h : room ≤ room') :
    (expression source (nested source limit room)).Within (· = .nestingTooDeep limit)
      (expression source (nested source limit' room')) :=
  level_within (nested_within source h) additive .leading

end Grammar

/-- Wider limits lead to the same result. -/
structure Limits.Within (few many : Limits) : Prop where
  nesting : few.nesting ≤ many.nesting
  operators : few.operators ≤ many.operators

theorem parse_within {few many : Limits} (h : few.Within many) (source : Text)
    (tokens : List Lexeme) :
    SameUnless ParseError.IsLimit (parse few source tokens) (parse many source tokens) := by
  rw [parse, parse]
  by_cases hcount : few.operators < operatorCount tokens
  · rw [if_pos hcount]
    exact .of_kind trivial _
  · rw [if_neg hcount, if_neg (by have := h.operators; omega)]
    cases unmatched? [] tokens with
    | some span => exact .refl _
    | none =>
      refine ((Grammar.expression_within source h.nesting tokens).mono ?_).bind fun _ _ => .refl _
      rintro _ rfl
      trivial

theorem parseText_within {few many : Limits} (h : few.Within many) (text : Text) :
    SameUnless ParseError.IsLimit (parseText few text) (parseText many text) :=
  (SameUnless.refl (scan text)).bind fun tokens _ => parse_within h text tokens

end Calculator
