import Calculator.Proofs.Grammar.Acceptance
import Calculator.Proofs.Grammar.Resolution

/-! Phrases cut at an operator, whatever the tree makes of it. Main statement: where an operator
stands outside all parentheses, what comes before and after it are expressions of their own. -/

namespace Calculator.Grammar

/-- A phrase cut at one of its operators, powers apart. -/
theorem Phrase.cut {room : Nat} {form : Form} {tokens : List Lexeme} {e : Expr}
    (h : Phrase room form tokens e) {ops : List BinaryOp} {position : Position}
    (hform : form = .level ops position) {op : BinaryOp} (hop : op ≠ .pow) {place : Span}
    {before after : List Lexeme} (hsplit : tokens = before ++ ⟨.operator op, place⟩ :: after)
    (hbinary : IsBinary op before ⟨.operator op, place⟩) :
    (∃ left, Phrase room (.level ops position) before left) ∧
      ∃ right, Phrase room (.level ops .operand) after right := by
  -- a term with no other operators than powers cannot be cut
  have hpow (position : Position) : op ∉ (Form.level [] position).operators := by
    simpa [Form.operators] using hop
  induction h generalizing ops position before after with
  | number | group | single | beside | unraised | raised => cases hform
  | unsigned h => exact absurd hbinary ((Phrase.unsigned h).free (hpow .operand) _ _ _ hsplit)
  | fused ht h => exact absurd hbinary ((Phrase.fused ht h).free (hpow _) _ _ _ hsplit)
  | signed ht hplain h =>
    exact absurd hbinary ((Phrase.signed ht hplain h).free (hpow _) _ _ _ hsplit)
  | tighter _ ih =>
    cases hform
    obtain ⟨⟨left, hleft⟩, right, hright⟩ := ih rfl hsplit hbinary
    exact ⟨⟨left, .tighter hleft⟩, right, .tighter hright⟩
  | @join room o ops position first u rest left right hl hr ihl ihr =>
    cases hform
    rcases List.append_eq_append_iff.1 hsplit with ⟨front, rfl, hrest⟩ | ⟨back, rfl, hafter⟩
    · cases front with
      | nil =>
        cases hrest
        rw [List.append_nil]
        exact ⟨⟨left, hl⟩, right, .tighter hr⟩
      | cons t front =>
        cases hrest
        have hinner := (isBinary_append_iff hl.balanced (by simp)).1 hbinary
        obtain ⟨⟨middle, hmiddle⟩, last, hlast⟩ := ihr rfl rfl (IsBinary.of_cons rfl hinner)
        exact ⟨⟨_, .join hl hmiddle⟩, last, .tighter hlast⟩
    · cases back with
      | nil =>
        cases hafter
        rw [List.append_nil] at hl
        exact ⟨⟨left, hl⟩, right, .tighter hr⟩
      | cons t back =>
        cases hafter
        obtain ⟨hfirst, middle, hmiddle⟩ := ihl rfl rfl hbinary
        exact ⟨hfirst, _, .join hmiddle hr⟩

/-- Which number comes first does not matter. -/
theorem Phrase.relabel {room : Nat} {form : Form} {tokens rest : List Lexeme} {e : Expr}
    (h : Phrase room form tokens e) {value : Float} {span : Span}
    (heq : tokens = ⟨.number value, span⟩ :: rest) (value' : Float) (span' : Span) :
    ∃ e', Phrase room form (⟨.number value', span'⟩ :: rest) e' := by
  induction h generalizing rest with
  | number =>
    cases heq
    exact ⟨_, .number⟩
  | group => cases heq
  | single _ ih => exact (ih heq).imp fun _ h => .single h
  | unraised _ ih => exact (ih heq).imp fun _ h => .unraised h
  | unsigned _ ih => exact (ih heq).imp fun _ h => .unsigned h
  | tighter _ ih => exact (ih heq).imp fun _ h => .tighter h
  | beside hl hr ih =>
    obtain ⟨t, before, rfl⟩ := List.exists_cons_of_ne_nil hl.ne_nil
    cases heq
    obtain ⟨left, h⟩ := ih rfl
    exact ⟨_, .beside h hr⟩
  | raised hl hr ih =>
    obtain ⟨t, before, rfl⟩ := List.exists_cons_of_ne_nil hl.ne_nil
    cases heq
    obtain ⟨left, h⟩ := ih rfl
    exact ⟨_, .raised h hr⟩
  | join hl hr ih =>
    obtain ⟨t, before, rfl⟩ := List.exists_cons_of_ne_nil hl.ne_nil
    cases heq
    obtain ⟨left, h⟩ := ih rfl
    exact ⟨_, .join h hr⟩
  | fused ht | signed ht =>
    cases heq
    cases ht

/-- What may stand after an operator may stand first. -/
theorem Phrase.leading {room : Nat} {form : Form} {tokens : List Lexeme} {e : Expr}
    (h : Phrase room form tokens e) {ops : List BinaryOp} {position : Position}
    (hform : form = .level ops position) : ∃ e', Phrase room (.level ops .leading) tokens e' := by
  induction h generalizing ops position with
  | number | group | single | beside | unraised | raised => cases hform
  | unsigned h =>
    cases hform
    exact ⟨_, .unsigned h⟩
  | fused ht h =>
    cases hform
    exact ⟨_, .fused ht h⟩
  | @signed room _ t sign tokens operand ht _ h =>
    cases hform
    by_cases hnumber : beginsWithNumber tokens
    · obtain ⟨value, span, rest, rfl⟩ := exists_number_of_beginsWithNumber hnumber
      obtain ⟨e', h⟩ := h.relabel rfl (sign.apply value) (t.span.cover span)
      exact ⟨e', .fused ht (h.mono (Nat.le_succ room))⟩
    · exact ⟨_, .signed ht (fun _ => hnumber) h⟩
  | tighter _ ih =>
    cases hform
    exact (ih rfl).imp fun _ h => .tighter h
  | join _ hr ih =>
    cases hform
    obtain ⟨left, h⟩ := ih rfl
    exact ⟨_, .join h hr⟩

/-- An expression cut at a slash outside all parentheses. -/
theorem Phrase.divide {room : Nat} {before after : List Lexeme} {place : Span} {e : Expr}
    (h : Phrase room (.level additive .leading) (before ++ ⟨.operator .div, place⟩ :: after) e)
    (houtside : IsOutside before) :
    (∃ left, Phrase room (.level additive .leading) before left) ∧
      ∃ right, Phrase room (.level additive .leading) after right := by
  obtain ⟨hleft, right, hright⟩ := h.cut rfl (by decide) rfl ⟨houtside, rfl, by simp [Token.sign?]⟩
  exact ⟨hleft, hright.leading rfl⟩

end Calculator.Grammar
