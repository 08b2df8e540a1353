import Calculator.Proofs.Grammar.Limits
import Calculator.Proofs.Grammar.Plus
import Calculator.Proofs.Token.Cut

/-! How deep an expression is nested. Main statement: the parser takes an expression if the limit
allows for its depth, and else finds it nested too deep. A plus that is no part of a number takes up
a level without a trace in the tree; without such pluses no other level is taken up than the tree
shows. -/

namespace Calculator

/-- The most groups, negations and exponents around each other. -/
def Expr.nesting : Expr → Nat
  | literal .. => 0
  | group inner _ => inner.nesting + 1
  | negate operand _ => operand.nesting + 1
  | binary .pow left right _ => max left.nesting (right.nesting + 1)
  | binary _ left right _ | adjacent left right _ => max left.nesting right.nesting

namespace Grammar

/-- An expression that stands `depth` levels inside. -/
def expressionAt (source : Text) (limit depth : Nat) : Parser :=
  expression source (nested source limit (limit - depth))

/-- A group in it stands one level further inside, as far as the limit allows. -/
theorem nested_expression_eq (source : Text) (limit depth : Nat) :
    (nested source limit (limit - depth)).expression =
      if limit ≤ depth then .fail (.nestingTooDeep limit)
      else expressionAt source limit (depth + 1) := by
  by_cases h : limit ≤ depth
  · rw [if_pos h, Nat.sub_eq_zero_of_le h, nested]
  · obtain ⟨room, hroom⟩ : ∃ room, limit - depth = room + 1 := ⟨limit - depth - 1, by omega⟩
    rw [if_neg h, expressionAt, hroom, nested, show limit - (depth + 1) = room by omega]
    rfl

/-! ### Levels of a phrase -/

/-- The operators are those of the levels. A `^` is none of them. -/
def Form.Plain : Form → Prop
  | level ops _ => .pow ∉ ops
  | _ => True

theorem nesting_signed_le (place : Span) (operand : Expr) (sign : Sign) :
    (signed place operand sign).nesting ≤ operand.nesting + 1 := by
  cases sign with
  | plus => exact Nat.le_succ _
  | minus => exact Nat.le_refl _

theorem max_nesting_le_join (op : BinaryOp) (left right : Expr) :
    max left.nesting right.nesting ≤ (Expr.join op left right).nesting := by
  cases op with
  | pow =>
    simp only [Expr.join, Expr.nesting]
    omega
  | _ => exact Nat.le_refl _

theorem nesting_join {op : BinaryOp} (h : op ≠ .pow) (left right : Expr) :
    (Expr.join op left right).nesting = max left.nesting right.nesting := by
  cases op with
  | pow => exact absurd rfl h
  | _ => rfl

/-- The tree is nested no deeper than the phrase may be. -/
theorem Phrase.nesting_le {room : Nat} {form : Form} {tokens : List Lexeme} {e : Expr}
    (h : Phrase room form tokens e) (hform : form.Plain) : e.nesting ≤ room := by
  induction h with
  | number => exact Nat.zero_le _
  | group _ ih => exact Nat.succ_le_succ (ih (show BinaryOp.pow ∉ additive by decide))
  | single _ ih | unraised _ ih | fused _ _ ih => exact ih trivial
  | unsigned _ ih => exact ih trivial
  | beside _ _ ihl ihr => exact Nat.max_le.2 ⟨ihl trivial, ihr trivial⟩
  | raised _ _ ihl ihr =>
    exact Nat.max_le.2 ⟨ihl trivial, Nat.succ_le_succ (ihr (List.not_mem_nil))⟩
  | @signed _ _ t sign _ operand _ _ _ ih =>
    exact Nat.le_trans (nesting_signed_le t.span operand sign) (Nat.succ_le_succ (ih trivial))
  | tighter _ ih => exact ih fun hmem => hform (List.mem_cons_of_mem _ hmem)
  | join _ _ ihl ihr =>
    rw [Form.Plain, List.mem_cons, not_or] at hform
    rw [nesting_join (Ne.symm hform.1)]
    exact Nat.max_le.2 ⟨ihl (by rwa [Form.Plain, List.mem_cons, not_or]), ihr hform.2⟩

/-! ### Pluses that take up no level -/

/-- The list is empty or ends in an opening parenthesis, so that what follows is in leading
position. -/
def Leads (before : List Lexeme) : Prop := ∀ t ∈ before.getLast?, t.token = .opening

/-- Behind `context`, a plus in the list that does not stand between operands is part of the number
after it. -/
def FusesPluses (context tokens : List Lexeme) : Prop :=
  ∀ before place after, tokens = before ++ ⟨.operator .add, place⟩ :: after →
    endsOperand (context ++ before) = false → Leads (context ++ before) ∧ beginsWithNumber after

instance : DecidablePred Leads := fun before => Option.decidableForallMem before.getLast?

instance : DecidablePred beginsWithNumber
  | ⟨.number _, _⟩ :: _ => .isTrue trivial
  | [] | ⟨.operator _, _⟩ :: _ | ⟨.opening, _⟩ :: _ | ⟨.closing, _⟩ :: _ => .isFalse id

instance (context tokens : List Lexeme) : Decidable (FusesPluses context tokens) :=
  decidable_of_iff (∀ c ∈ cuts tokens, c.lexeme.token = .operator .add →
      endsOperand (context ++ c.before) = false →
        Leads (context ++ c.before) ∧ beginsWithNumber c.after)
    ⟨fun h before place after hsplit => h ⟨before, ⟨.operator .add, place⟩, after⟩
        (mem_cuts.2 hsplit) rfl,
      fun h c hc htoken => h c.before c.lexeme.span c.after (htoken ▸ mem_cuts.1 hc)⟩

section

variable {context a b : List Lexeme}

theorem leads_append (hb : b ≠ []) : Leads (a ++ b) ↔ Leads b := by
  rw [Leads, List.getLast?_append, Option.or_of_isSome (by simpa using hb), Leads]

theorem FusesPluses.right (h : FusesPluses context (a ++ b)) : FusesPluses (context ++ a) b := by
  intro before place after hsplit hunary
  rw [List.append_assoc] at hunary ⊢
  exact h (a ++ before) place after (by rw [hsplit, List.append_assoc]) hunary

theorem FusesPluses.tail {t : Lexeme} (h : FusesPluses context (t :: b)) :
    FusesPluses (context ++ [t]) b := FusesPluses.right (a := [t]) h

theorem FusesPluses.left (h : FusesPluses context (a ++ b)) (ha : endsOperand a) :
    FusesPluses context a := by
  intro before place after hsplit hunary
  obtain ⟨hleads, hnumber⟩ :=
    h before place (after ++ b) (by rw [hsplit, List.append_assoc, List.cons_append]) hunary
  refine ⟨hleads, (beginsWithNumber_append ?_ b).1 hnumber⟩
  rintro rfl
  rw [hsplit, endsOperand_append (List.cons_ne_nil _ _)] at ha
  cases ha

/-- After a number it makes no difference which one it is and where it stands. -/
theorem FusesPluses.number {value value' : Float} {span span' : Span}
    (h : FusesPluses context (⟨.number value, span⟩ :: b)) :
    FusesPluses context (⟨.number value', span'⟩ :: b) := by
  intro before place after hsplit hunary
  rcases before with _ | ⟨n, _ | ⟨t, before⟩⟩
  · cases hsplit
  · obtain ⟨rfl, _⟩ := List.cons.inj hsplit
    rw [endsOperand_append (List.cons_ne_nil _ _)] at hunary
    cases hunary
  · obtain ⟨rfl, rfl⟩ := List.cons.inj hsplit
    have hne := List.cons_ne_nil t before
    rw [List.append_cons, endsOperand_append hne] at hunary
    rw [List.append_cons, leads_append hne]
    have hbefore := h (⟨.number value, span⟩ :: t :: before) place after rfl
    rw [List.append_cons, endsOperand_append hne, leads_append hne] at hbefore
    exact hbefore hunary

/-- The position of a level is that of what comes after the list. -/
def Form.StandsAfter : Form → List Lexeme → Prop
  | level _ position, context =>
    endsOperand context = false ∧ (Leads context ↔ position = .leading)
  | _, _ => True

/-- Behind an opening parenthesis a level is in leading position, behind an operator it is not. -/
theorem Form.standsAfter_single {ops : List BinaryOp} {position : Position} {t : Lexeme}
    (ht : endsOperand [t] = false) (hposition : t.token = .opening ↔ position = .leading) :
    (level ops position).StandsAfter (context ++ [t]) := by
  have hne := List.cons_ne_nil t []
  rw [StandsAfter, endsOperand_append hne, leads_append hne, ← hposition]
  exact ⟨ht, by simp [Leads]⟩

/-- A sign without a node is part of a number, and so takes up no level. -/
theorem FusesPluses.not_plus {position : Position} {t : Lexeme}
    (h : FusesPluses context (t :: b)) (hcontext : (Form.level [] position).StandsAfter context)
    (hplain : position = .leading → ¬beginsWithNumber b) : t.token.sign? ≠ some .plus := by
  intro hsign
  obtain ⟨token, place⟩ := t
  obtain ⟨op, rfl⟩ := exists_operator_of_sign? hsign
  cases op with
  | add =>
    have hfuses := h [] place b rfl
    rw [List.append_nil] at hfuses
    obtain ⟨hleads, hnumber⟩ := hfuses hcontext.1
    exact hplain (hcontext.2.1 hleads) hnumber
  | _ => cases hsign

end

/-- Without pluses that take up a level, a phrase needs no more of them than the tree shows. -/
theorem Phrase.of_fusesPluses {room : Nat} {form : Form} {context tokens : List Lexeme} {e : Expr}
    (h : Phrase room form tokens e) (hcontext : form.StandsAfter context)
    (hplus : FusesPluses context tokens) : Phrase e.nesting form tokens e := by
  induction h generalizing context with
  | number => exact .number
  | @group room opened inside closed inner hinside ih =>
    have hbehind : (Form.level additive .leading).StandsAfter (context ++ [⟨.opening, opened⟩]) :=
      Form.standsAfter_single rfl (by simp)
    exact .group (ih hbehind (hplus.tail.left hinside.endsOperand))
  | single _ ih => exact .single (ih trivial hplus)
  | unraised _ ih => exact .unraised (ih trivial hplus)
  | unsigned _ ih => exact .unsigned (ih trivial hplus)
  | tighter _ ih => exact .tighter (ih hcontext hplus)
  | beside hl hr ihl ihr =>
    exact .beside ((ihl trivial (hplus.left hl.endsOperand)).mono (Nat.le_max_left ..))
      ((ihr trivial hplus.right).mono (Nat.le_max_right ..))
  | @raised room before place after base exponent hl hr ihl ihr =>
    have hbase := ihl trivial (hplus.left hl.endsOperand)
    have hbehind : (Form.level [] .operand).StandsAfter
        (context ++ before ++ [⟨.operator .pow, place⟩]) :=
      Form.standsAfter_single rfl (by simp)
    have hexponent := ihr hbehind hplus.right.tail
    obtain ⟨deep, hdeep⟩ : ∃ deep, (Expr.join .pow base exponent).nesting = deep + 1 :=
      ⟨max (base.nesting - 1) exponent.nesting, by simp only [Expr.join, Expr.nesting]; omega⟩
    rw [hdeep]
    simp only [Expr.join, Expr.nesting] at hdeep
    exact .raised (hbase.mono (by omega)) (hexponent.mono (by omega))
  | @fused room t sign value span rest e ht h ih =>
    exact .fused ht (ih trivial hplus.tail.number)
  | @signed room position t sign tokens operand ht hplain h ih =>
    cases sign with
    | plus => exact absurd ht (hplus.not_plus hcontext hplain)
    | minus => exact .signed ht hplain (ih trivial hplus.tail)
  | @join room op ops position before place after left right hl hr ihl ihr =>
    have hleft := ihl hcontext (hplus.left hl.endsOperand)
    have hbehind : (Form.level ops .operand).StandsAfter
        (context ++ before ++ [⟨.operator op, place⟩]) :=
      Form.standsAfter_single rfl (by simp)
    have hright := ihr hbehind hplus.right.tail
    have hle := max_nesting_le_join op left right
    exact .join (hleft.mono (by omega)) (hright.mono (by omega))

/-! ### The limit -/

theorem nesting_le_of_expressionAt {source : Text} {limit depth : Nat} {tokens rest : List Lexeme}
    {e : Expr} (h : (expressionAt source limit depth).run tokens = .ok (e, rest)) :
    e.nesting ≤ limit - depth := by
  obtain ⟨used, _, hused, _⟩ := expression_finds _ _ _ _ h
  exact hused.nesting_le (show BinaryOp.pow ∉ additive by decide)

/-- What is parsed at some depth is nested no deeper than the limit allows there. If besides no plus
takes up a level, it is parsed wherever a limit allows for its levels, and where none does so it is
found nested too deep. -/
theorem expressionAt_nesting {source : Text} {limit depth : Nat} {tokens rest : List Lexeme}
    {e : Expr} (h : (expressionAt source limit depth).run tokens = .ok (e, rest)) :
    (depth + e.nesting ≤ limit ∨ e.nesting = 0) ∧
    ∃ used, tokens = used ++ rest ∧ (FusesPluses [] used → ∀ limit' depth',
      (expressionAt source limit' depth').run tokens =
        if depth' + e.nesting ≤ limit' ∨ e.nesting = 0 then .ok (e, rest)
        else .error (.nestingTooDeep limit')) := by
  have hle := nesting_le_of_expressionAt h
  obtain ⟨used, hsplit, hused, hfollow⟩ := expression_finds _ _ _ _ h
  refine ⟨by omega, used, hsplit, fun hplus limit' depth' => ?_⟩
  by_cases hroom : depth' + e.nesting ≤ limit' ∨ e.nesting = 0
  · have htight := hused.of_fusesPluses ⟨rfl, by simp [Leads]⟩ hplus
    have hreads := (htight.mono (show e.nesting ≤ limit' - depth' by omega)).reads source limit'
    rw [if_pos hroom, hsplit]
    exact run_of_reads hreads (List.suffix_refl _) hfollow
  · rw [if_neg hroom]
    have hless : limit' - depth' ≤ limit - depth := by omega
    rcases expression_within source hless tokens with hsame | ⟨error, herror, rfl⟩
    · -- with too few levels left the expression cannot be found
      have := nesting_le_of_expressionAt (hsame.trans h)
      omega
    · exact herror

/-- Three levels inside the first one: the exponent, its sign and the group. -/
theorem expressionAt_nesting_exponent : ∃ tokens e,
    scan "+2^-(3)".toList = .ok tokens ∧
    (expressionAt "+2^-(3)".toList 4 1).run tokens = .ok (e, []) ∧ e.nesting = 3 ∧
    (expressionAt "+2^-(3)".toList 3 1).run tokens = .error (.nestingTooDeep 3) := by
  have hscan : scan "+2^-(3)".toList = .ok [⟨.operator .add, ⟨0, 1⟩⟩, ⟨.number 2, ⟨1, 2⟩⟩,
      ⟨.operator .pow, ⟨2, 3⟩⟩, ⟨.operator .sub, ⟨3, 4⟩⟩, ⟨.opening, ⟨4, 5⟩⟩,
      ⟨.number 3, ⟨5, 6⟩⟩, ⟨.closing, ⟨6, 7⟩⟩] := by
    decide +kernel
  have hrun : (expressionAt "+2^-(3)".toList 4 1).run [⟨.operator .add, ⟨0, 1⟩⟩,
      ⟨.number 2, ⟨1, 2⟩⟩, ⟨.operator .pow, ⟨2, 3⟩⟩, ⟨.operator .sub, ⟨3, 4⟩⟩,
      ⟨.opening, ⟨4, 5⟩⟩, ⟨.number 3, ⟨5, 6⟩⟩, ⟨.closing, ⟨6, 7⟩⟩] =
      .ok (.join .pow (.literal 2 ⟨0, 2⟩)
        (.negate (.group (.literal 3 ⟨5, 6⟩) ⟨4, 7⟩) ⟨3, 7⟩), []) := by
    decide +kernel
  obtain ⟨_, used, hsplit, hlimits⟩ := expressionAt_nesting hrun
  rw [List.append_nil] at hsplit
  subst hsplit
  exact ⟨_, _, hscan, hrun, rfl, hlimits (by decide) 3 1⟩

end Grammar

end Calculator
