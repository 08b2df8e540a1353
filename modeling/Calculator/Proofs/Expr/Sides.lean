import Calculator.Proofs.Expr.Enclosure
import Calculator.Proofs.Grammar.Division

/-! The two sides of a fraction. Main statement: where an exponent is read as a fraction, both
sides are expressions within the same limits, and have operands side by side only where the
exponent has. -/

namespace Calculator

open Grammar (bind_eq_ok endsOperand endsOperand_append)

/-! ### Operands side by side -/

/-- No two operands stand side by side in the expression. -/
def Expr.Unjoined (e : Expr) : Prop := ∀ left right span, .adjacent left right span ∉ e.nodes

/-- No operand begins right after the end of another one. -/
def Spaced (tokens : List Lexeme) : Prop :=
  tokens.IsChain fun a b => endsOperand [a] → b.token.beginsOperand = false

namespace Expr

variable {inner left right : Expr} {span : Span}

@[simp] theorem unjoined_literal (value : Float) (span : Span) :
    (literal value span).Unjoined := by
  simp [Unjoined, nodes]

@[simp] theorem unjoined_group_iff : (group inner span).Unjoined ↔ inner.Unjoined := by
  simp [Unjoined, nodes]

@[simp] theorem unjoined_negate_iff : (negate inner span).Unjoined ↔ inner.Unjoined := by
  simp [Unjoined, nodes]

@[simp] theorem unjoined_binary_iff {op : BinaryOp} :
    (binary op left right span).Unjoined ↔ left.Unjoined ∧ right.Unjoined := by
  simp only [Unjoined, nodes, List.mem_cons, List.mem_append, reduceCtorEq, false_or, not_or,
    forall_and]

@[simp] theorem not_unjoined_adjacent : ¬(adjacent left right span).Unjoined :=
  fun h => h left right span (self_mem_nodes _)

theorem unjoined_mapSpan_iff {f : Span → Span} (e : Expr) :
    (e.mapSpan f).Unjoined ↔ e.Unjoined := by
  induction e <;> simp_all [mapSpan]

theorem Unjoined.of_mem {e node : Expr} (h : e.Unjoined) (hmem : node ∈ e.nodes) :
    node.Unjoined := fun left right span hinner => h left right span (mem_nodes_trans hmem hinner)

end Expr

namespace Grammar

theorem unjoined_signed_iff {place : Span} {operand : Expr} {sign : Sign} :
    (signed place operand sign).Unjoined ↔ operand.Unjoined := by
  cases sign
  · rfl
  · exact Expr.unjoined_negate_iff

theorem endsOperand_operator {t : Lexeme} {op : BinaryOp} (ht : t.token = .operator op) :
    endsOperand [t] = false := by
  obtain ⟨token, span⟩ := t
  cases ht
  rfl

theorem spaced_cons_iff {t : Lexeme} {tokens : List Lexeme} (ht : endsOperand [t] = false) :
    Spaced (t :: tokens) ↔ Spaced tokens := by
  rw [Spaced, List.isChain_cons]
  simp [ht, Spaced]

theorem spaced_append_iff {a b : List Lexeme}
    (hb : ∀ t ∈ b.head?, t.token.beginsOperand = false) :
    Spaced (a ++ b) ↔ Spaced a ∧ Spaced b := by
  rw [Spaced, List.isChain_append]
  constructor
  · rintro ⟨ha, hb, _⟩
    exact ⟨ha, hb⟩
  · rintro ⟨ha, hb'⟩
    exact ⟨ha, hb', fun _ _ t ht _ => hb t ht⟩

/-- The tree has operands side by side where the tokens have. -/
theorem Phrase.unjoined_iff {room : Nat} {form : Form} {tokens : List Lexeme} {e : Expr}
    (h : Phrase room form tokens e) : e.Unjoined ↔ Spaced tokens := by
  induction h with
  | number => exact ⟨fun _ => .singleton _, fun _ => Expr.unjoined_literal _ _⟩
  | group _ ih =>
    rw [Expr.unjoined_group_iff, ih, spaced_cons_iff rfl, spaced_append_iff (by rintro _ ⟨⟩; rfl)]
    exact ⟨fun h => ⟨h, .singleton _⟩, And.left⟩
  | single _ ih | unraised _ ih | unsigned _ ih | tighter _ ih => exact ih
  | @beside _ before after _ _ hl hr =>
    refine ⟨fun h => absurd h Expr.not_unjoined_adjacent, fun hspaced => ?_⟩
    obtain ⟨t, after, rfl⟩ := List.exists_cons_of_ne_nil hr.ne_nil
    obtain ⟨before, u, rfl⟩ := (List.eq_nil_or_concat' before).resolve_left hl.ne_nil
    have hends := hl.endsOperand
    rw [endsOperand_append (by simp)] at hends
    have hbegins := hr.head_beginsOperand (.inl rfl) t rfl
    have hnext := (List.isChain_append.1 hspaced).2.2 u (by simp) t rfl hends
    rw [hbegins] at hnext
    cases hnext
  | raised _ _ ihl ihr | join _ _ ihl ihr =>
    rw [Expr.join, Expr.unjoined_binary_iff, ihl, ihr, spaced_append_iff (by rintro _ ⟨⟩; rfl),
      spaced_cons_iff (endsOperand_operator rfl)]
  | fused ht _ ih =>
    obtain ⟨op, hop⟩ := exists_operator_of_sign? ht
    rw [ih, spaced_cons_iff (endsOperand_operator hop), Spaced, Spaced, List.isChain_cons,
      List.isChain_cons]
    rfl
  | signed ht _ _ ih =>
    obtain ⟨op, hop⟩ := exists_operator_of_sign? ht
    rw [unjoined_signed_iff, ih, spaced_cons_iff (endsOperand_operator hop)]

end Grammar

/-! ### The slash in a text -/

namespace Fraction

variable {depth : Nat} {text : Text}

theorem splitSlash?_cons {c : Char} (h : ¬(c = '/' ∧ depth = 0)) :
    splitSlash? depth (c :: text) =
      (splitSlash? (depthAfter depth c) text).map fun (before, after) => (c :: before, after) := by
  rw [splitSlash?, if_neg h]

theorem splitSlash?_numeric {run : Text} (h : ∀ c ∈ run, isNumeric c) :
    splitSlash? depth (run ++ text) =
      (splitSlash? depth text).map fun (before, after) => (run ++ before, after) := by
  induction run with
  | nil => simp
  | cons c run ih =>
    obtain ⟨hc, hrun⟩ := List.forall_mem_cons.1 h
    have hslash : c ≠ '/' := by rintro rfl; cases hc
    have hdepth : depthAfter depth c = depth := by
      rw [depthAfter, if_neg (by rintro rfl; cases hc), if_neg (by rintro rfl; cases hc)]
    rw [List.cons_append, splitSlash?_cons (by simp [hslash]), hdepth, ih hrun, Option.map_map]
    rfl

end Fraction

/-- The tokens have a slash between two tiled texts, where `depth` more parentheses are closed than
opened before it. -/
def HasSlash (start depth : Nat) (numerator denominator : Text) (tokens : List Lexeme) : Prop :=
  ∃ before place after, tokens = before ++ ⟨.operator .div, place⟩ :: after ∧
    Tiles start numerator before ∧ Tiles (start + numerator.byteLength + 1) denominator after ∧
    closings before = openings before + depth

theorem HasSlash.cons {start depth depth' : Nat} {token : Token}
    {piece numerator denominator : Text} {tokens : List Lexeme} (hpiece : token.Writes piece)
    (h : HasSlash (start + piece.byteLength) depth' numerator denominator tokens)
    (hdepth : (if token = .closing then 1 else 0) + depth' =
      (if token = .opening then 1 else 0) + depth) :
    HasSlash start depth (piece ++ numerator) denominator
      (⟨token, ⟨start, start + piece.byteLength⟩⟩ :: tokens) := by
  obtain ⟨before, place, after, rfl, hnumerator, hdenominator, hcount⟩ := h
  refine ⟨_ :: before, place, after, rfl, .cons hpiece hnumerator, ?_, ?_⟩
  · rwa [Text.byteLength_append, ← Nat.add_assoc]
  · rw [closings_cons, openings_cons]
    dsimp only
    omega

/-- A slash that splits a text is one of its tokens. -/
theorem Tiles.hasSlash {start depth : Nat} {text numerator denominator : Text}
    {tokens : List Lexeme} (h : Tiles start text tokens) (hcloses : Closes depth tokens)
    (hsplit : Fraction.splitSlash? depth text = some (numerator, denominator)) :
    HasSlash start depth numerator denominator tokens := by
  induction h generalizing depth numerator with
  | nil => cases hsplit
  | @cons start token piece text tokens hpiece hrest ih =>
    -- past a token after which `depth'` parentheses are open
    have hpass {depth' : Nat} (hcloses : Closes depth' tokens)
        (hdepth : (if token = .closing then 1 else 0) + depth' =
          (if token = .opening then 1 else 0) + depth)
        (hstep : Fraction.splitSlash? depth (piece ++ text) =
          (Fraction.splitSlash? depth' text).map fun (before, after) => (piece ++ before, after)) :
        HasSlash start depth numerator denominator
          (⟨token, ⟨start, start + piece.byteLength⟩⟩ :: tokens) := by
      rw [hstep] at hsplit
      obtain ⟨⟨before, after⟩, hsplit, heq⟩ := Option.map_eq_some_iff.1 hsplit
      cases heq
      exact (ih hcloses hsplit).cons hpiece hdepth
    cases token with
    | number value =>
      exact hpass ((closes_other_iff (by simp) (by simp)).1 hcloses) (by simp)
        (Fraction.splitSlash?_numeric hpiece.1)
    | operator op =>
      obtain rfl := hpiece
      by_cases hslash : op.toChar = '/' ∧ depth = 0
      · obtain ⟨hchar, rfl⟩ := hslash
        cases BinaryOp.ofChar?_eq_some_iff.2 hchar.symm
        rw [List.singleton_append, Fraction.splitSlash?, if_pos ⟨rfl, rfl⟩] at hsplit
        cases hsplit
        exact ⟨[], _, tokens, rfl, .nil, hrest, rfl⟩
      · have hdepth : Fraction.depthAfter depth op.toChar = depth := by cases op <;> rfl
        refine hpass ((closes_other_iff (by simp) (by simp)).1 hcloses) (by simp) ?_
        rw [List.singleton_append, Fraction.splitSlash?_cons hslash, hdepth]
        rfl
    | opening =>
      obtain rfl := hpiece
      refine hpass (closes_opening_iff.1 hcloses) (by simp; omega) ?_
      rw [List.singleton_append, Fraction.splitSlash?_cons (by simp)]
      rfl
    | closing =>
      obtain rfl := hpiece
      cases depth with
      | zero => exact absurd hcloses not_balanced_closing
      | succ depth =>
        refine hpass (closes_closing_iff.1 hcloses) (by simp; omega) ?_
        rw [List.singleton_append, Fraction.splitSlash?_cons (by simp)]
        rfl

/-! ### Both sides as expressions -/

/-- The text is an expression within the limits, with no operands side by side if `e` has none. -/
def IsSide (limits : Limits) (e : Expr) (text : Text) : Prop :=
  ∃ side, parseText limits text = .ok side ∧ (e.Unjoined → side.Unjoined)

section

variable {limits : Limits} {source : Text} {e exponent : Expr}

/-- A text split at a slash outside its parentheses. -/
theorem isSide_of_splitSlash? {numerator denominator : Text} (h : parseText limits source = .ok e)
    (hsplit : Fraction.splitSlash? 0 source = some (numerator, denominator)) :
    IsSide limits e numerator ∧ IsSide limits e denominator := by
  obtain ⟨tokens, hscan, hparse⟩ := bind_eq_ok.1 h
  obtain ⟨htiles, hapart⟩ := scanFrom_eq_ok_iff.1 hscan
  obtain ⟨hphrase, hoperators⟩ := Grammar.parse_eq_ok_iff.1 hparse
  have hside {n : Nat} {text : Text} {part : List Lexeme} {side : Expr} (htiles : Tiles n text part)
      (hpart : Grammar.Phrase limits.nesting (.level Grammar.additive .leading) part side)
      (hin : part <:+: tokens) : IsSide limits e text := by
    have hapart' : Apart part := List.IsChain.infix hapart hin
    obtain ⟨side', hparse', rfl⟩ := parseText_of_tiles htiles hapart' hpart
      (Nat.le_trans hin.sublist.countP_le hoperators)
    refine ⟨side', hparse', fun hunjoined => ?_⟩
    rw [← Expr.unjoined_mapSpan_iff, hpart.unjoined_iff]
    exact List.IsChain.infix (hphrase.unjoined_iff.1 hunjoined) hin
  obtain ⟨before, place, after, rfl, hnumerator, hdenominator, houtside⟩ :=
    htiles.hasSlash hphrase.balanced hsplit
  obtain ⟨⟨left, hleft⟩, right, hright⟩ := hphrase.divide houtside
  exact ⟨hside hnumerator hleft (List.prefix_append _ _).isInfix,
    hside hdenominator hright ⟨before ++ [⟨.operator .div, place⟩], [], by simp⟩⟩

theorem Fraction.inside?_enclosed (inside : Text) :
    inside? ('(' :: (inside ++ [')'])) = some inside := by
  simp [inside?]

theorem Fraction.exists_group_of_ofExponent? {fraction : Fraction}
    (h : ofExponent? source exponent = some fraction) :
    ∃ inner span, .group inner span ∈ exponent.nodes ∧
      ∃ negated, ofGroup? negated span source = some fraction := by
  unfold ofExponent? at h
  split at h
  · exact ⟨_, _, Expr.self_mem_nodes _, _, h⟩
  · exact ⟨_, _, List.mem_cons_of_mem _ (Expr.self_mem_nodes _), _, h⟩
  · cases h

/-- What is read as a fraction has two sides that are expressions. -/
theorem isSide_of_ofExponent? {fraction : Fraction} (h : parseText limits source = .ok e)
    (hmem : exponent ∈ e.nodes) (hfraction : Fraction.ofExponent? source exponent = some fraction) :
    IsSide limits e fraction.numerator ∧ IsSide limits e fraction.denominator := by
  obtain ⟨inner, span, hinner, negated, hgroup⟩ := Fraction.exists_group_of_ofExponent? hfraction
  have hinner' := Expr.mem_nodes_trans hmem hinner
  obtain ⟨front, inside, back, e', rfl, rfl, hparse, rfl⟩ := exists_inside_of_parseText h hinner'
  obtain ⟨text, htext, hgroup⟩ := Option.bind_eq_some_iff.1 hgroup
  rw [Span.text_enclosed, Fraction.inside?_enclosed] at htext
  cases htext
  obtain ⟨⟨numerator, denominator⟩, hsplit, heq⟩ := Option.bind_eq_some_iff.1 hgroup
  cases heq
  have hside {text : Text} : IsSide limits e' text → IsSide limits e text := by
    rintro ⟨side, hside, hunjoined⟩
    refine ⟨side, hside, fun h => hunjoined ?_⟩
    have := h.of_mem hinner'
    rwa [Expr.unjoined_group_iff, Expr.unjoined_mapSpan_iff] at this
  exact (isSide_of_splitSlash? hparse hsplit).imp hside hside

end

end Calculator
