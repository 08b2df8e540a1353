import Calculator.Proofs.Grammar.Phrase

/-! Which token may follow which: a list read by looking at nothing but the token before. Main
statement: a phrase is read to its end in this way. -/

namespace Calculator.Grammar

/-- What is expected next, by what came last. -/
inductive Stage where
  /-- An operand or its sign, at the start or after an operator. -/
  | operand
  /-- The same after an opening parenthesis. -/
  | opened
  /-- The same after a `^`. -/
  | raised
  /-- An operand after its sign. -/
  | signed
  /-- What may follow an operand. -/
  | complete
  deriving DecidableEq

/-- What is expected after a token, if it is one of those that were expected. -/
def Stage.next : Stage → Token → Option Stage
  | _, .number _ => some complete
  | _, .opening => some opened
  | complete, .closing => some complete
  | complete, .operator .pow => some raised
  | complete, .operator _ => some operand
  | operand, .operator .add | operand, .operator .sub => some signed
  | opened, .operator .add | opened, .operator .sub => some signed
  | raised, .operator .add | raised, .operator .sub => some signed
  | _, _ => none

/-- How far a list can be read when each token has only to be expected after the last one: what
is expected in the end, and what is left unread. -/
def follow : Stage → List Lexeme → Stage × List Lexeme
  | stage, [] => (stage, [])
  | stage, t :: tokens =>
    match stage.next t.token with
    | some next => follow next tokens
    | none => (stage, t :: tokens)

/-- Whether a sign is expected to be that of an operand. -/
def Stage.AllowsSign (stage : Stage) : Prop := stage ≠ .signed ∧ stage ≠ .complete

theorem Stage.allowsSign_operand : AllowsSign .operand := ⟨by decide, by decide⟩

theorem Stage.allowsSign_opened : AllowsSign .opened := ⟨by decide, by decide⟩

theorem Stage.allowsSign_raised : AllowsSign .raised := ⟨by decide, by decide⟩

section

variable {stage stage' : Stage} {t : Lexeme} {tokens : List Lexeme}

@[simp] theorem Stage.next_number (value : Float) :
    stage.next (.number value) = some .complete := by
  cases stage <;> rfl

@[simp] theorem Stage.next_opening : stage.next .opening = some .opened := by
  cases stage <;> rfl

theorem Stage.next_sign {token : Token} {sign : Sign} (h : stage.AllowsSign)
    (htoken : token.sign? = some sign) : stage.next token = some .signed := by
  obtain ⟨op, rfl⟩ := exists_operator_of_sign? htoken
  cases stage with
  | signed => exact absurd rfl h.1
  | complete => exact absurd rfl h.2
  | _ =>
    cases op with
    | add | sub => rfl
    | _ => cases htoken

/-- All stages that allow a sign expect the same. -/
theorem Stage.next_eq (h : stage.AllowsSign) (h' : stage'.AllowsSign) (token : Token) :
    stage.next token = stage'.next token := by
  have hoperand {stage : Stage} (h : stage.AllowsSign) :
      stage.next token = Stage.operand.next token := by
    cases stage with
    | signed => exact absurd rfl h.1
    | complete => exact absurd rfl h.2
    | _ =>
      cases token with
      | operator op => cases op <;> rfl
      | _ => rfl
  rw [hoperand h, hoperand h']

theorem Stage.isSome_next (h : stage.AllowsSign) (token : Token) :
    (stage.next token).isSome = (token.sign?.isSome || token.beginsOperand) := by
  rw [Stage.next_eq h Stage.allowsSign_operand]
  cases token with
  | operator op => cases op <;> rfl
  | _ => rfl

/-- But for a sign, a stage that allows one expects no more than an operand. -/
theorem Stage.next_signed_eq (h : stage.AllowsSign) {token : Token} (htoken : token.sign? = none) :
    Stage.next .signed token = stage.next token := by
  rw [Stage.next_eq h Stage.allowsSign_operand]
  cases token with
  | operator op =>
    cases op with
    | add | sub => cases htoken
    | _ => rfl
  | _ => rfl

theorem follow_of_next (h : stage.next t.token = some stage') :
    follow stage (t :: tokens) = follow stage' tokens := by
  rw [follow, h]

theorem follow_of_stuck (h : stage.next t.token = none) :
    follow stage (t :: tokens) = (stage, t :: tokens) := by
  rw [follow, h]

@[simp] theorem follow_number (value : Float) (span : Span) :
    follow stage (⟨.number value, span⟩ :: tokens) = follow .complete tokens :=
  follow_of_next (Stage.next_number value)

@[simp] theorem follow_opening (span : Span) :
    follow stage (⟨.opening, span⟩ :: tokens) = follow .opened tokens :=
  follow_of_next Stage.next_opening

@[simp] theorem follow_closing (span : Span) :
    follow .complete (⟨.closing, span⟩ :: tokens) = follow .complete tokens :=
  follow_of_next rfl

/-- Which operator stands between two operands makes no difference to what may follow it. -/
theorem exists_follow_operator (op : BinaryOp) (span : Span) (tokens : List Lexeme) :
    ∃ stage : Stage, stage.AllowsSign ∧
      follow .complete (⟨.operator op, span⟩ :: tokens) = follow stage tokens := by
  cases op with
  | pow => exact ⟨.raised, Stage.allowsSign_raised, follow_of_next rfl⟩
  | _ => exact ⟨.operand, Stage.allowsSign_operand, follow_of_next rfl⟩

end

theorem follow_suffix (stage : Stage) (tokens : List Lexeme) :
    (follow stage tokens).2 <:+ tokens := by
  induction tokens generalizing stage with
  | nil => exact List.suffix_refl _
  | cons t tokens ih =>
    cases hnext : stage.next t.token with
    | none =>
      simpa only [follow_of_stuck hnext] using List.suffix_refl _
    | some next =>
      rw [follow_of_next hnext]
      exact (ih next).trans (List.suffix_cons ..)

/-- The stages in which a phrase may begin. -/
def Form.BeginsAt : Form → Stage → Prop
  | level _ _, stage => stage.AllowsSign
  | _, _ => True

/-- A phrase is read to its end. -/
theorem Phrase.follow_append {room : Nat} {form : Form} {tokens : List Lexeme} {e : Expr}
    (h : Phrase room form tokens e) {stage : Stage} (hstage : form.BeginsAt stage)
    (rest : List Lexeme) : follow stage (tokens ++ rest) = follow .complete rest := by
  induction h generalizing stage rest with
  | number => exact follow_number _ _
  | group _ ih =>
    rw [List.cons_append, follow_opening, List.append_assoc, ih Stage.allowsSign_opened,
      List.singleton_append, follow_closing]
  | single _ ih | unraised _ ih => exact ih trivial rest
  | beside _ _ ihl ihr => rw [List.append_assoc, ihl trivial, ihr trivial]
  | raised _ _ ihl ihr =>
    rw [List.append_assoc, ihl trivial, List.cons_append, follow_of_next rfl,
      ihr Stage.allowsSign_raised]
  | unsigned _ ih => exact ih trivial rest
  | fused ht _ ih =>
    have hnumber := ih (show Form.BeginsAt .power .signed from trivial) rest
    rw [List.cons_append, follow_number] at hnumber
    rw [List.cons_append, follow_of_next (Stage.next_sign hstage ht), List.cons_append,
      follow_number, hnumber]
  | signed ht _ _ ih =>
    rw [List.cons_append, follow_of_next (Stage.next_sign hstage ht), ih trivial]
  | tighter _ ih => exact ih hstage rest
  | @join _ op _ _ _ place after _ _ _ _ ihl ihr =>
    obtain ⟨next, hnext, hfollow⟩ := exists_follow_operator op place (after ++ rest)
    rw [List.append_assoc, ihl hstage, List.cons_append, hfollow, ihr hnext]

end Calculator.Grammar
