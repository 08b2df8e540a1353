import Calculator.Proofs.Grammar.Relocation

/-! Parsing without places. Main statement: which tokens a list holds settles what is found, an
expression or an error of some kind; their places and the source settle only where the nodes of the
expression stand and what the error quotes. -/

namespace Calculator

/-! ### Outlines -/

/-- The place that all spans have in an outline. -/
def Span.origin : Span := ⟨0, 0⟩

theorem Span.respected_origin : Respected fun _ => origin := fun _ _ => rfl

/-- The token alone. -/
def Lexeme.outline (t : Lexeme) : Lexeme := t.mapSpan fun _ => .origin

@[simp] theorem Lexeme.token_outline (t : Lexeme) : t.outline.token = t.token := rfl

theorem Lexeme.map_outline_eq_iff {tokens tokens' : List Lexeme} :
    tokens.map outline = tokens'.map outline ↔ tokens.map token = tokens'.map token := by
  have hplace : outline = (fun token => ⟨token, .origin⟩) ∘ token := rfl
  have hinjective : Function.Injective fun token => (⟨token, .origin⟩ : Lexeme) :=
    fun _ _ h => congrArg token h
  rw [hplace, ← List.map_map, ← List.map_map, (List.map_injective_iff.2 hinjective).eq_iff]

/-- The expression without the places of its nodes. -/
def Expr.outline (e : Expr) : Expr := e.mapSpan fun _ => .origin

theorem Expr.outline_join (op : BinaryOp) (left right : Expr) :
    (join op left right).outline = join op left.outline right.outline :=
  mapSpan_join Span.respected_origin op left right

theorem Expr.outline_beside (left right : Expr) :
    (beside left right).outline = beside left.outline right.outline :=
  mapSpan_beside Span.respected_origin left right

@[simp] theorem Expr.span_outline (e : Expr) : e.outline.span = .origin := e.span_mapSpan

/-- The error without the text that it quotes. -/
def ParseError.outline : ParseError → ParseError
  | unmatchedParenthesis _ => unmatchedParenthesis []
  | emptyGroup _ => emptyGroup []
  | malformedNumber _ => malformedNumber []
  | missingExponent _ => missingExponent []
  | nestingTooDeep limit => nestingTooDeep limit
  | tooManyOperators count limit => tooManyOperators count limit

/-- What `f` keeps of the value, or the outline of the error. -/
def outlineBy {α β : Type} (f : α → β) : Except ParseError α → Except ParseError β
  | .ok a => .ok (f a)
  | .error error => .error error.outline

theorem outlineBy_bind {α α' β β' : Type} {f : α → α'} {g : β → β'} {x : Except ParseError α}
    {k : α → Except ParseError β} {k' : α' → Except ParseError β'}
    (h : ∀ a, k' (f a) = outlineBy g (k a)) :
    (outlineBy f x >>= k') = outlineBy g (x >>= k) := by
  cases x with
  | error error => rfl
  | ok a => exact h a

/-- Results with one outline are both values or both errors. -/
theorem of_outlineBy_eq {α β : Type} {f : α → β} {x y : Except ParseError α}
    (h : outlineBy f x = outlineBy f y) :
    (∃ a b, x = .ok a ∧ y = .ok b ∧ f a = f b) ∨
    ∃ error error', x = .error error ∧ y = .error error' ∧ error.outline = error'.outline := by
  cases x with
  | ok a =>
    cases y with
    | ok b => exact .inl ⟨a, b, rfl, rfl, Except.ok.inj h⟩
    | error error' => cases h
  | error error =>
    cases y with
    | ok b => cases h
    | error error' => exact .inr ⟨error, error', rfl, rfl, Except.error.inj h⟩

namespace Grammar

/-- The outline of what a parser finds. -/
def Reading.outline (found : Reading) : Reading :=
  outlineBy (Prod.map Expr.outline (List.map Lexeme.outline)) found

/-- On the outline of a list, the second parser finds the outline of what the first one finds. -/
def Parser.Outlines (p q : Parser) : Prop :=
  ∀ tokens, q.run (tokens.map Lexeme.outline) = Reading.outline (p.run tokens)

/-- The same of the parsers one level further in. -/
structure Nested.Outlines (p q : Nested) : Prop where
  expression : p.expression.Outlines q.expression
  power : p.power.Outlines q.power
  exponent (base : Span) : (p.exponent base).Outlines (q.exponent .origin)

/-! ### Loops -/

namespace Parser.Outlines

variable {p q : Parser}

theorem foldFrom (h : p.Outlines q) (op : BinaryOp) (left : Expr) (tokens : List Lexeme) :
    q.foldFrom op left.outline (tokens.map Lexeme.outline) =
      Reading.outline (p.foldFrom op left tokens) := by
  fun_induction Parser.foldFrom p op left tokens with
  | case1 left => exact Parser.foldFrom_nil ..
  | case2 left t tokens ht error hrun =>
    rw [List.map_cons, Parser.foldFrom_cons, Lexeme.token_outline, if_pos ht, h, hrun]
    rfl
  | case3 left t tokens ht right rest hrun ih =>
    rw [List.map_cons, Parser.foldFrom_cons, Lexeme.token_outline, if_pos ht, h, hrun]
    rwa [Expr.outline_join] at ih
  | case4 left t tokens ht =>
    rw [List.map_cons, Parser.foldFrom_cons, Lexeme.token_outline, if_neg ht]
    rfl

theorem besideFrom (h : p.Outlines q) (left : Expr) (tokens : List Lexeme) :
    q.besideFrom left.outline (tokens.map Lexeme.outline) =
      Reading.outline (p.besideFrom left tokens) := by
  fun_induction Parser.besideFrom p left tokens with
  | case1 left => exact Parser.besideFrom_nil ..
  | case2 left t tokens ht error hrun =>
    rw [List.map_cons, Parser.besideFrom_cons, Lexeme.token_outline, if_pos ht, ← List.map_cons, h,
      hrun]
    rfl
  | case3 left t tokens ht right rest hrun ih =>
    rw [List.map_cons, Parser.besideFrom_cons, Lexeme.token_outline, if_pos ht, ← List.map_cons, h,
      hrun]
    rwa [Expr.outline_beside] at ih
  | case4 left t tokens ht =>
    rw [List.map_cons, Parser.besideFrom_cons, Lexeme.token_outline, if_neg ht]
    rfl

theorem foldLeft {p' q' : Parser} (h : p.Outlines q) (h' : p'.Outlines q') (op : BinaryOp) :
    (Parser.foldLeft op p p').Outlines (.foldLeft op q q') := by
  intro tokens
  change (q.run (tokens.map Lexeme.outline) >>= _) = _
  rw [h tokens]
  exact outlineBy_bind fun (left, rest) => h'.foldFrom op left rest

end Parser.Outlines

/-! ### Terms and levels -/

section

variable (source : Text) {p q : Nested}

theorem readGroup_outline (h : p.Outlines q) (opened : Span) (tokens : List Lexeme) :
    readGroup [] q .origin (tokens.map Lexeme.outline) =
      Reading.outline (readGroup source p opened tokens) := by
  cases tokens with
  | nil => rfl
  | cons t tokens =>
    rw [List.map_cons, readGroup, readGroup, Lexeme.token_outline]
    by_cases ht : t.token = .closing
    · rw [if_pos ht, if_pos ht]
      rfl
    · rw [if_neg ht, if_neg ht, ← List.map_cons, h.expression]
      apply outlineBy_bind
      rintro ⟨inner, rest⟩
      cases rest with
      | nil => rfl
      | cons t rest =>
        change (if t.token = .closing then _ else _) =
          outlineBy _ (if t.token = .closing then _ else _)
        by_cases ht : t.token = .closing
        · rw [if_pos ht, if_pos ht]
          rfl
        · rw [if_neg ht, if_neg ht]
          rfl

theorem primary_outline (h : p.Outlines q) :
    (primary source p).Outlines (primary [] q) := by
  intro tokens
  change readPrimary [] q _ = Reading.outline (readPrimary source p tokens)
  cases tokens with
  | nil => rfl
  | cons t tokens =>
    obtain ⟨token, span⟩ := t
    cases token with
    | opening => exact readGroup_outline source h span tokens
    | _ => rfl

theorem readExponent_outline (h : p.Outlines q) (base : Expr) (tokens : List Lexeme) :
    readExponent q base.outline (tokens.map Lexeme.outline) =
      Reading.outline (readExponent p base tokens) := by
  cases tokens with
  | nil => rfl
  | cons t tokens =>
    rw [List.map_cons, readExponent, readExponent, Lexeme.token_outline, Expr.span_outline]
    by_cases ht : t.token = .operator .pow
    · rw [if_pos ht, if_pos ht]
      change ((q.exponent .origin).run _ >>= _) = _
      rw [h.exponent (base.span.cover t.span)]
      apply outlineBy_bind
      rintro ⟨exponent, rest⟩
      exact congrArg (fun e => Except.ok (e, rest.map Lexeme.outline))
        (Expr.outline_join .pow base exponent).symm
    · rw [if_neg ht, if_neg ht]
      rfl

theorem readPower_outline (h : p.Outlines q) (first : Expr) (tokens : List Lexeme) :
    readPower [] q first.outline (tokens.map Lexeme.outline) =
      Reading.outline (readPower source p first tokens) := by
  rw [readPower, (primary_outline source h).besideFrom]
  exact outlineBy_bind fun (base, rest) => readExponent_outline h base rest

theorem power_outline (h : p.Outlines q) : (power source p).Outlines (power [] q) := by
  intro tokens
  change (readPrimary [] q (tokens.map Lexeme.outline) >>= _) = _
  rw [show readPrimary [] q _ = _ from primary_outline source h tokens]
  exact outlineBy_bind fun (first, rest) => readPower_outline source h first rest

theorem readOperand_outline (h : p.Outlines q) (sign : Sign) (place : Span)
    (tokens : List Lexeme) :
    readSigned.readOperand q sign .origin (tokens.map Lexeme.outline) =
      Reading.outline (readSigned.readOperand p sign place tokens) := by
  rw [readSigned.readOperand, h.power]
  apply outlineBy_bind
  rintro ⟨operand, rest⟩
  cases sign with
  | plus => rfl
  | minus =>
    change Except.ok (Expr.negate _ (Span.origin.cover operand.outline.span), _) = _
    rw [Expr.span_outline]
    rfl

theorem readSigned_outline (h : p.Outlines q) (position : Position) (sign : Sign) (place : Span)
    (tokens : List Lexeme) :
    readSigned [] q position sign .origin (tokens.map Lexeme.outline) =
      Reading.outline (readSigned source p position sign place tokens) := by
  cases tokens with
  | nil => exact readOperand_outline h sign place []
  | cons t tokens =>
    obtain ⟨token, span⟩ := t
    cases token with
    | number value =>
      change (if position = .leading then _ else _) =
        Reading.outline (if position = .leading then _ else _)
      by_cases hp : position = .leading
      · rw [if_pos hp, if_pos hp]
        exact readPower_outline source h (.literal (sign.apply value) (place.cover span)) tokens
      · rw [if_neg hp, if_neg hp]
        exact readOperand_outline h sign place (⟨.number value, span⟩ :: tokens)
    | _ => exact readOperand_outline h sign place (_ :: tokens)

theorem unary_outline (h : p.Outlines q) (position : Position) :
    (unary source p position).Outlines (unary [] q position) := by
  intro tokens
  change readUnary [] q position _ = Reading.outline (readUnary source p position tokens)
  cases tokens with
  | nil => exact power_outline source h []
  | cons t tokens =>
    rw [List.map_cons, readUnary, readUnary, Lexeme.token_outline]
    cases t.token.sign? with
    | none => exact power_outline source h (t :: tokens)
    | some sign => exact readSigned_outline source h position sign t.span tokens

theorem exponent_outline (h : p.Outlines q) (base : Span) :
    (exponent source p base).Outlines (exponent [] q .origin) := by
  intro tokens
  cases tokens with
  | nil => rfl
  | cons t tokens =>
    change (if t.token.sign?.isSome || t.token.beginsOperand then _ else _) =
      Reading.outline (if t.token.sign?.isSome || t.token.beginsOperand then _ else _)
    by_cases ht : t.token.sign?.isSome || t.token.beginsOperand
    · rw [if_pos ht, if_pos ht]
      exact unary_outline source h .operand (t :: tokens)
    · rw [if_neg ht, if_neg ht]
      rfl

theorem level_outline (h : p.Outlines q) (ops : List BinaryOp) (position : Position) :
    (level source p ops position).Outlines (level [] q ops position) := by
  induction ops generalizing position with
  | nil => exact unary_outline source h position
  | cons op ops ih => exact (ih position).foldLeft (ih .operand) op

end

theorem nested_outline (source : Text) (limit room : Nat) :
    (nested source limit room).Outlines (nested [] limit room) := by
  induction room with
  | zero => exact ⟨fun _ => rfl, fun _ => rfl, fun _ _ => rfl⟩
  | succ room ih =>
    exact ⟨level_outline source ih additive .leading, power_outline source ih,
      exponent_outline source ih⟩

/-! ### Whole lists -/

theorem operatorCount_outline (tokens : List Lexeme) :
    operatorCount (tokens.map Lexeme.outline) = operatorCount tokens :=
  operatorCount_mapSpan (f := fun _ => .origin) tokens

theorem unmatched?_outline (opened : List Span) (tokens : List Lexeme) :
    unmatched? (opened.map fun _ => .origin) (tokens.map Lexeme.outline) =
      (unmatched? opened tokens).map fun _ => .origin := by
  induction tokens generalizing opened with
  | nil => exact List.head?_map ..
  | cons t tokens ih =>
    obtain ⟨token, span⟩ := t
    cases token with
    | opening => exact ih (span :: opened)
    | closing =>
      cases opened with
      | nil => rfl
      | cons place opened => exact ih opened
    | _ => cases opened <;> exact ih _

end Grammar

/-- A list without its places is parsed as the list is, the places and quotes left out. -/
theorem parse_outline (limits : Limits) (source : Text) (tokens : List Lexeme) :
    parse limits [] (tokens.map Lexeme.outline) =
      outlineBy Expr.outline (parse limits source tokens) := by
  rw [parse, parse, Grammar.operatorCount_outline]
  by_cases hcount : limits.operators < operatorCount tokens
  · rw [if_pos hcount, if_pos hcount]
    rfl
  · rw [if_neg hcount, if_neg hcount]
    have hmatched := Grammar.unmatched?_outline [] tokens
    rw [List.map_nil] at hmatched
    rw [hmatched]
    cases unmatched? [] tokens with
    | some span => rfl
    | none =>
      have hnested := Grammar.nested_outline source limits.nesting limits.nesting
      have hrun := Grammar.level_outline source hnested Grammar.additive .leading tokens
      change ((Grammar.level [] _ _ _).run _ >>= _) = _
      rw [hrun]
      apply outlineBy_bind
      rintro ⟨e, rest⟩
      cases rest <;> rfl

/-- Two lists of the same tokens, at whatever places, are parsed from any two sources with the same
outcome: the same expression but for the places of its nodes, or the same error but for the text
that it quotes. -/
theorem parse_ignores_places (limits : Limits) (source source' : Text)
    {tokens tokens' : List Lexeme} (h : tokens.map Lexeme.token = tokens'.map Lexeme.token) :
    (∃ e e', parse limits source tokens = .ok e ∧ parse limits source' tokens' = .ok e' ∧
      e.outline = e'.outline) ∨
    ∃ error error', parse limits source tokens = .error error ∧
      parse limits source' tokens' = .error error' ∧ error.outline = error'.outline := by
  apply of_outlineBy_eq
  rw [← parse_outline, ← parse_outline, Lexeme.map_outline_eq_iff.2 h]

/-- The same tokens all at one place, which no text has. -/
theorem parse_ignores_places_foreign : ∃ tokens e e', scan "2^(3)".toList = .ok tokens ∧
    parse {} "2^(3)".toList tokens = .ok e ∧
    parse {} "é".toList (tokens.map fun t => ⟨t.token, ⟨9, 1⟩⟩) = .ok e' ∧
    e.outline = e'.outline := by
  have htext : parseText {} "2^(3)".toList =
      .ok (.join .pow (.literal 2 ⟨0, 1⟩) (.group (.literal 3 ⟨3, 4⟩) ⟨2, 5⟩)) := by
    decide +kernel
  obtain ⟨tokens, hscan, hparse⟩ := Grammar.bind_eq_ok.1 htext
  have hsame : tokens.map Lexeme.token =
      (tokens.map fun t => (⟨t.token, ⟨9, 1⟩⟩ : Lexeme)).map Lexeme.token := by
    simp
  rcases parse_ignores_places {} "2^(3)".toList "é".toList hsame with
    ⟨e, e', he, he', houtline⟩ | ⟨error, _, herror, _⟩
  · exact ⟨tokens, e, e', hscan, he, he', houtline⟩
  · rw [hparse] at herror
    cases herror

end Calculator
