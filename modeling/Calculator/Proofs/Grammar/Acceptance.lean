import Calculator.Proofs.Grammar.Phrase

/-! What the rules allow, the parser takes. Main statement: a list is parsed exactly if it is a
phrase within the levels of nesting and has no more operators than allowed; the expression it is
parsed as is the only one that it writes. -/

namespace Calculator.Grammar

/-- No token comes first that the phrase could be gone on with. -/
def Form.EndsBefore (form : Form) (rest : List Lexeme) : Prop :=
  ∀ t ∈ rest.head?, form.MayPrecede t.token

/-- What its parser makes of the tokens of a phrase when others come after. Where an operand or an
operator of the phrase may follow, the parser goes on from the expression. -/
def Form.Reads (source : Text) (nested : Nested) : Form → List Lexeme → Expr → Prop
  | primary, tokens, e => ∀ rest, readPrimary source nested (tokens ++ rest) = .ok (e, rest)
  | chain, tokens, e => ∀ rest, (do
      let (first, rest) ← readPrimary source nested (tokens ++ rest)
      (Grammar.primary source nested).besideFrom first rest) =
      (Grammar.primary source nested).besideFrom e rest
  | power, tokens, e => ∀ rest, power.EndsBefore rest →
      (Grammar.power source nested).run (tokens ++ rest) = .ok (e, rest)
  | level [] position, tokens, e => ∀ rest, (level [] position).EndsBefore rest →
      (unary source nested position).run (tokens ++ rest) = .ok (e, rest)
  | level (op :: ops) position, tokens, e => op :: ops <:+ additive →
      ∀ rest, (level ops position).EndsBefore rest →
        (Grammar.level source nested (op :: ops) position).run (tokens ++ rest) =
          (Grammar.level source nested ops .operand).foldFrom op e rest

section

variable {source : Text} {nested : Nested} {ops : List BinaryOp} {position : Position}
  {tokens rest : List Lexeme} {e : Expr}

theorem Form.EndsBefore.of_cons {op : BinaryOp}
    (h : (Form.level (op :: ops) position).EndsBefore rest) :
    (Form.level ops position).EndsBefore rest := by
  intro t ht
  exact ⟨(h t ht).1, fun o ho => (h t ht).2 o (List.mem_cons_of_mem _ ho)⟩

theorem run_of_reads (h : (Form.level ops position).Reads source nested tokens e)
    (hops : ops <:+ additive) (hrest : (Form.level ops position).EndsBefore rest) :
    (level source nested ops position).run (tokens ++ rest) = .ok (e, rest) := by
  cases ops with
  | nil => exact h rest hrest
  | cons op ops =>
    rw [h hops rest hrest.of_cons]
    cases rest with
    | nil => exact Parser.foldFrom_nil ..
    | cons t rest =>
      rw [Parser.foldFrom_cons, if_neg ((hrest t rfl).2 op List.mem_cons_self)]

/-- A closing parenthesis ends whatever stands before it. -/
theorem endsBefore_closing (place : Span) (rest : List Lexeme) :
    (Form.level ops position).EndsBefore (⟨.closing, place⟩ :: rest) := by
  rintro _ ⟨⟩
  exact ⟨⟨rfl, by simp⟩, by simp⟩

/-- An operator ends what binds tighter. -/
theorem endsBefore_operator {op : BinaryOp} {place : Span} (h : op :: ops <:+ additive) :
    (Form.level ops position).EndsBefore (⟨.operator op, place⟩ :: rest) := by
  have hnodup : (op :: ops).Nodup := h.sublist.nodup (by decide)
  have hpow : op ≠ .pow := by
    rintro rfl
    have hmem : BinaryOp.pow ∈ additive := h.subset List.mem_cons_self
    revert hmem
    decide
  rintro _ ⟨⟩
  refine ⟨⟨rfl, by simpa using hpow⟩, ?_⟩
  rintro o ho ⟨⟩
  exact (List.nodup_cons.1 hnodup).1 ho

/-- A sign is an operator. -/
theorem sign?_of_beginsOperand {t : Token} (h : t.beginsOperand) : t.sign? = none := by
  cases hsign : t.sign? with
  | none => rfl
  | some sign =>
    obtain ⟨op, rfl⟩ := exists_operator_of_sign? hsign
    cases h

theorem run_power : (power source nested).run tokens = (do
    let (first, rest) ← readPrimary source nested tokens
    (primary source nested).besideFrom first rest) >>= fun (base, rest) =>
      readExponent nested base rest := by
  change (do
    let (first, rest) ← readPrimary source nested tokens
    readPower source nested first rest) = _
  cases readPrimary source nested tokens <;> rfl

theorem run_unary_unsigned {t : Lexeme} (h : t.token.beginsOperand) :
    (unary source nested position).run (t :: tokens) = (power source nested).run (t :: tokens) := by
  change readUnary source nested position (t :: tokens) = _
  rw [readUnary, sign?_of_beginsOperand h]

theorem besideFrom_of_reads {left right : Expr} {after : List Lexeme}
    (h : Form.primary.Reads source nested after right)
    (hhead : ∀ t ∈ after.head?, t.token.beginsOperand) (hne : after ≠ []) :
    (primary source nested).besideFrom left (after ++ rest) =
      (primary source nested).besideFrom (left.beside right) rest := by
  obtain ⟨t, after, rfl⟩ := List.exists_cons_of_ne_nil hne
  rw [List.cons_append, Parser.besideFrom_cons, if_pos (hhead t rfl)]
  change (do
    let (right, rest) ← readPrimary source nested (t :: (after ++ rest))
    (primary source nested).besideFrom (left.beside right) rest) = _
  rw [← List.cons_append, h rest]
  rfl

/-- A chain is read to its end where no operand follows. -/
theorem besideFrom_eq (hrest : Form.chain.EndsBefore rest) :
    (primary source nested).besideFrom e rest = .ok (e, rest) := by
  cases rest with
  | nil => exact Parser.besideFrom_nil ..
  | cons t rest =>
    rw [Parser.besideFrom_cons, if_neg (by simpa [Form.MayPrecede] using hrest t rfl)]

theorem run_power_of_chain (h : Form.chain.Reads source nested tokens e)
    (hrest : Form.chain.EndsBefore rest) :
    (power source nested).run (tokens ++ rest) = readExponent nested e rest := by
  rw [run_power, h rest, besideFrom_eq hrest]
  rfl

theorem beginsWithNumber_append (hne : tokens ≠ []) (rest : List Lexeme) :
    beginsWithNumber (tokens ++ rest) ↔ beginsWithNumber tokens := by
  obtain ⟨⟨token, place⟩, tokens, rfl⟩ := List.exists_cons_of_ne_nil hne
  cases token <;> exact Iff.rfl

theorem readSigned_eq {sign : Sign} {place : Span}
    (h : position = .leading → ¬beginsWithNumber tokens) :
    readSigned source nested position sign place tokens =
      readSigned.readOperand nested sign place tokens := by
  unfold readSigned
  split
  · by_cases hp : position = .leading
    · exact absurd trivial (h hp)
    · rw [if_neg hp]
  · rfl

end

/-- A term begins with an operand or its sign. -/
theorem Phrase.head_startsUnary {room : Nat} {position : Position} {tokens : List Lexeme} {e : Expr}
    (h : Phrase room (.level [] position) tokens e) :
    ∀ t ∈ tokens.head?, t.token.sign?.isSome || t.token.beginsOperand := by
  cases h with
  | unsigned h =>
    intro t ht
    simp [h.head_beginsOperand (.inr (.inr rfl)) t ht]
  | fused ht _ | signed ht _ _ =>
    rintro _ ⟨⟩
    simp [ht]

theorem run_exponent {source : Text} {nested : Nested} (base : Span) {tokens rest : List Lexeme}
    {found : Reading} (hhead : ∀ t ∈ tokens.head?, t.token.sign?.isSome || t.token.beginsOperand)
    (hne : tokens ≠ []) (h : (unary source nested .operand).run (tokens ++ rest) = found) :
    (exponent source nested base).run (tokens ++ rest) = found := by
  obtain ⟨t, tokens, rfl⟩ := List.exists_cons_of_ne_nil hne
  change (if t.token.sign?.isSome || t.token.beginsOperand then _ else _) = _
  rw [if_pos (hhead t rfl)]
  exact h

theorem readPrimary_group {source : Text} {limit room : Nat} {opened closed : Span}
    {inside rest : List Lexeme} {inner : Expr} (hne : inside ≠ []) (hbalanced : Balanced inside)
    (hrun : (expression source (nested source limit room)).run
      (inside ++ ⟨.closing, closed⟩ :: rest) = .ok (inner, ⟨.closing, closed⟩ :: rest)) :
    readPrimary source (nested source limit (room + 1))
      (⟨.opening, opened⟩ :: (inside ++ ⟨.closing, closed⟩ :: rest)) =
        .ok (.group inner (opened.cover closed), rest) := by
  obtain ⟨⟨token, place⟩, inside, rfl⟩ := List.exists_cons_of_ne_nil hne
  have hclosing : token ≠ .closing := by
    rintro rfl
    exact not_balanced_closing hbalanced
  rw [List.cons_append] at hrun ⊢
  rw [readPrimary, readGroup, if_neg hclosing]
  change (do
    let (inner, rest) ← (expression source (nested source limit room)).run _
    _) = _
  rw [hrun]
  rfl

/-- Every phrase is read as the expression it writes. -/
theorem Phrase.reads {room : Nat} {form : Form} {tokens : List Lexeme} {e : Expr}
    (h : Phrase room form tokens e) (source : Text) (limit : Nat) :
    form.Reads source (nested source limit room) tokens e := by
  induction h with
  | number => exact fun rest => rfl
  | group h ih =>
    intro rest
    rw [List.cons_append, List.append_assoc]
    exact readPrimary_group h.ne_nil h.balanced
      (run_of_reads ih (List.suffix_refl _) (endsBefore_closing _ rest))
  | single _ ih =>
    intro rest
    rw [ih rest]
    rfl
  | beside hl hr ihl ihr =>
    intro rest
    have hhead := hr.head_beginsOperand (.inl rfl)
    rw [List.append_assoc, ihl, besideFrom_of_reads ihr hhead hr.ne_nil]
  | unraised h ih =>
    intro rest hrest
    rw [run_power_of_chain ih fun t ht => (hrest t ht).1]
    cases rest with
    | nil => rfl
    | cons t rest => rw [readExponent, if_neg (hrest t rfl).2]
  | @raised room before place after base exponent hl hr ihl ihr =>
    intro rest hrest
    have hrun := run_exponent (base.span.cover place) hr.head_startsUnary hr.ne_nil
      (ihr rest fun t ht => ⟨hrest t ht, by simp⟩)
    rw [List.append_assoc, run_power_of_chain ihl (by rintro _ ⟨⟩; rfl), List.cons_append,
      readExponent, if_pos rfl]
    change (do
      let (exponent, rest) ← (Grammar.exponent source (nested source limit room) _).run _
      _) = _
    rw [hrun]
    rfl
  | unsigned h ih =>
    intro rest hrest
    obtain ⟨t, tokens, rfl⟩ := List.exists_cons_of_ne_nil h.ne_nil
    rw [List.cons_append, run_unary_unsigned (h.head_beginsOperand (.inr (.inr rfl)) t rfl),
      ← List.cons_append]
    exact ih rest fun t ht => (hrest t ht).1
  | @fused room t sign value span tokens e ht h ih =>
    intro rest hrest
    have hrun := ih rest fun t ht => (hrest t ht).1
    change readUnary source (nested source limit room) .leading (t :: _ :: tokens ++ rest) = _
    rw [List.cons_append, readUnary, ht]
    exact hrun
  | @signed room position t sign tokens operand ht hplain h ih =>
    intro rest hrest
    have hrun := ih rest fun t ht => (hrest t ht).1
    change readUnary source (nested source limit (room + 1)) position (t :: tokens ++ rest) = _
    rw [← beginsWithNumber_append h.ne_nil rest] at hplain
    rw [List.cons_append, readUnary, ht]
    dsimp only
    rw [readSigned_eq hplain]
    change (do
      let (operand, rest) ← (power source (nested source limit room)).run _
      _) = _
    rw [hrun]
    cases sign <;> rfl
  | @tighter _ op ops position tokens e h ih =>
    intro hops rest hrest
    have hrun := run_of_reads ih ((List.suffix_cons ..).trans hops) hrest
    change (do
      let (left, rest) ← (level source _ ops position).run _
      (level source _ ops .operand).foldFrom op left rest) = _
    rw [hrun]
    rfl
  | @join room op ops position before place after left right hl hr ihl ihr =>
    intro hops rest hrest
    have hrun := run_of_reads ihr ((List.suffix_cons ..).trans hops) hrest
    rw [List.append_assoc, List.cons_append, ihl hops _ (endsBefore_operator hops),
      Parser.foldFrom_cons, if_pos rfl, hrun]
    rfl

/-! ### Whole lists -/

/-- A list that is a phrase as a whole is parsed, if it has few enough operators. -/
theorem parse_of_phrase {limits : Limits} {tokens : List Lexeme} {e : Expr}
    (h : Phrase limits.nesting (.level additive .leading) tokens e)
    (hoperators : operatorCount tokens ≤ limits.operators) (source : Text) :
    parse limits source tokens = .ok e := by
  have hmatched : unmatched? [] tokens = none := unmatched?_eq_none_iff.2 h.balanced
  have hreads := h.reads source limits.nesting
  have hrun : (expression source (nested source limits.nesting limits.nesting)).run (tokens ++ []) =
      .ok (e, []) := run_of_reads hreads (List.suffix_refl _) (by rintro _ ⟨⟩)
  rw [List.append_nil] at hrun
  rw [parse, if_neg (Nat.not_lt.2 hoperators), hmatched]
  dsimp only
  rw [hrun]
  rfl

theorem operatorCount_le_of_parse {limits : Limits} {source : Text} {tokens : List Lexeme}
    {e : Expr} (h : parse limits source tokens = .ok e) :
    operatorCount tokens ≤ limits.operators := by
  unfold parse at h
  split at h
  · cases h
  · next hle => exact Nat.le_of_not_lt hle

/-- The parser takes what the rules allow, and nothing else. -/
theorem parse_eq_ok_iff {limits : Limits} {source : Text} {tokens : List Lexeme} {e : Expr} :
    parse limits source tokens = .ok e ↔
      Phrase limits.nesting (.level additive .leading) tokens e ∧
        operatorCount tokens ≤ limits.operators := by
  constructor
  · intro h
    exact ⟨phrase_of_parse h, operatorCount_le_of_parse h⟩
  · rintro ⟨h, hoperators⟩
    exact parse_of_phrase h hoperators source

/-- A list writes one expression at most. -/
theorem Phrase.unique {room : Nat} {tokens : List Lexeme} {e e' : Expr}
    (h : Phrase room (.level additive .leading) tokens e)
    (h' : Phrase room (.level additive .leading) tokens e') : e = e' := by
  have hparse (e : Expr) (h : Phrase room (.level additive .leading) tokens e) :
      parse ⟨room, operatorCount tokens⟩ [] tokens = .ok e := parse_of_phrase h (Nat.le_refl _) []
  exact Except.ok.inj ((hparse e h).symm.trans (hparse e' h'))

/-- More levels of nesting do no harm. -/
theorem Phrase.mono {room room' : Nat} {form : Form} {tokens : List Lexeme} {e : Expr}
    (h : Phrase room form tokens e) (hle : room ≤ room') : Phrase room' form tokens e := by
  induction h generalizing room' with
  | number => exact .number
  | single _ ih => exact .single (ih hle)
  | unraised _ ih => exact .unraised (ih hle)
  | unsigned _ ih => exact .unsigned (ih hle)
  | tighter _ ih => exact .tighter (ih hle)
  | beside _ _ ihl ihr => exact .beside (ihl hle) (ihr hle)
  | join _ _ ihl ihr => exact .join (ihl hle) (ihr hle)
  | fused ht _ ih => exact .fused ht (ih hle)
  | group _ ih =>
    cases room' with
    | zero => omega
    | succ n => exact .group (ih (Nat.le_of_succ_le_succ hle))
  | raised _ _ ihl ihr =>
    cases room' with
    | zero => omega
    | succ n => exact .raised (ihl hle) (ihr (Nat.le_of_succ_le_succ hle))
  | signed ht hplain _ ih =>
    cases room' with
    | zero => omega
    | succ n => exact .signed ht hplain (ih (Nat.le_of_succ_le_succ hle))

end Calculator.Grammar
