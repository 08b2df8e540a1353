import Calculator.Proofs.Grammar.Acceptance
import Calculator.Proofs.Token.Tiling

/-! Heights of expressions. Groups, signs and exponents are counted by the limit on nesting, and
all operators by the limit on operators; operands side by side are counted by neither. Main
statements: the height of a tree is bounded by the two limits and the operands that are joined on
the way down, and by the two limits alone it is not. -/

namespace Calculator

namespace Expr

/-- The number of nodes on the longest way down. -/
def height : Expr → Nat
  | literal .. => 1
  | group inner _ => inner.height + 1
  | negate operand _ => operand.height + 1
  | binary _ left right _ | adjacent left right _ => max left.height right.height + 1

/-- The most nodes of operands side by side on any way down. -/
def joins : Expr → Nat
  | literal .. => 0
  | group inner _ => inner.joins
  | negate operand _ => operand.joins
  | binary _ left right _ => max left.joins right.joins
  | adjacent left right _ => max left.joins right.joins + 1

end Expr

namespace Grammar

theorem operatorCount_cons (t : Lexeme) (tokens : List Lexeme) :
    operatorCount (t :: tokens) = operatorCount tokens + if t.token.isOperator then 1 else 0 :=
  List.countP_cons

theorem operatorCount_append (a b : List Lexeme) :
    operatorCount (a ++ b) = operatorCount a + operatorCount b := List.countP_append

/-- Every level of the tree that joins no operands side by side uses up a level of nesting or an
operator. -/
theorem Phrase.height_le {room : Nat} {form : Form} {tokens : List Lexeme} {e : Expr}
    (h : Phrase room form tokens e) : e.height ≤ room + operatorCount tokens + e.joins + 1 := by
  induction h with
  | number => simp [Expr.height]
  | group _ ih =>
    simp only [operatorCount_cons, operatorCount_append, Expr.height, Expr.joins]
    omega
  | single _ ih | unraised _ ih | unsigned _ ih | tighter _ ih => exact ih
  | beside _ _ ihl ihr =>
    simp only [operatorCount_append, Expr.beside, Expr.height, Expr.joins]
    omega
  | raised _ _ ihl ihr | join _ _ ihl ihr =>
    simp only [operatorCount_append, operatorCount_cons, Token.isOperator, if_true, Expr.join,
      Expr.height, Expr.joins]
    omega
  | fused _ _ ih =>
    simp only [operatorCount_cons, Token.isOperator] at ih ⊢
    simp only [Bool.false_eq_true, if_false] at ih ⊢
    omega
  | @signed _ _ t sign _ operand _ _ _ ih =>
    have hsigned : (Grammar.signed t.span operand sign).height ≤ operand.height + 1 ∧
        (Grammar.signed t.span operand sign).joins = operand.joins := by
      cases sign
      · exact ⟨Nat.le_succ _, rfl⟩
      · exact ⟨Nat.le_refl _, rfl⟩
    rw [operatorCount_cons]
    omega

/-- The limits bound the height but for the operands that are joined. -/
theorem height_le_of_parseText {limits : Limits} {source : Text} {e : Expr}
    (h : parseText limits source = .ok e) :
    e.height ≤ limits.nesting + limits.operators + e.joins + 1 := by
  obtain ⟨tokens, _, hparse⟩ := bind_eq_ok.1 h
  have hle := (phrase_of_parse hparse).height_le
  have hcount := operatorCount_le_of_parse hparse
  omega

/-- A tree just as high as the bound. -/
theorem height_le_of_parseText_attained : ∃ e, parseText ⟨1, 1⟩ "2+(3)(4)".toList = .ok e ∧
    e.height ≤ 1 + 1 + e.joins + 1 ∧ e.height = 4 ∧ e.joins = 1 := by
  have h : parseText ⟨1, 1⟩ "2+(3)(4)".toList =
      .ok (.join .add (.literal 2 ⟨0, 1⟩) (.beside (.group (.literal 3 ⟨3, 4⟩) ⟨2, 5⟩)
        (.group (.literal 4 ⟨6, 7⟩) ⟨5, 8⟩))) := by
    decide +kernel
  exact ⟨_, h, height_le_of_parseText h, rfl, rfl⟩

/-! ### Groups side by side -/

/-- The text `(1)` and as many more of it. -/
def groups : Nat → Text
  | 0 => "(1)".toList
  | n + 1 => groups n ++ "(1)".toList

/-- The tokens of `(1)` from the given offset on. -/
def groupTokens (start : Nat) : List Lexeme :=
  [⟨.opening, ⟨start, start + 1⟩⟩, ⟨.number 1, ⟨start + 1, start + 2⟩⟩,
    ⟨.closing, ⟨start + 2, start + 3⟩⟩]

theorem tiles_groupTokens (start : Nat) : Tiles start "(1)".toList (groupTokens start) := by
  have hone : (Token.number 1).Writes ['1'] :=
    ⟨List.forall_mem_singleton.2 rfl, by decide +kernel⟩
  exact .cons (show Token.opening.Writes ['('] from rfl)
    (.cons hone (.cons (show Token.closing.Writes [')'] from rfl) .nil))

theorem exists_phrase_groups (n : Nat) :
    ∃ tokens e, Tiles 0 (groups n) tokens ∧ Apart tokens ∧ operatorCount tokens = 0 ∧
      Phrase 1 .chain tokens e ∧ e.height = n + 2 := by
  have hgroup (start : Nat) : Phrase 1 .primary (groupTokens start) _ :=
    .group (.expression_of_power (.unraised (.single .number)))
  have hapart (start : Nat) : Apart (groupTokens start) := by
    simp [Apart, groupTokens, Token.isNumber]
  induction n with
  | zero =>
    exact ⟨_, _, tiles_groupTokens 0, hapart 0, rfl, .single (hgroup 0), rfl⟩
  | succ n ih =>
    obtain ⟨tokens, e, htiles, htokens, hcount, hphrase, hheight⟩ := ih
    refine ⟨_, _, htiles.append (tiles_groupTokens _), ?_, ?_, .beside hphrase (hgroup _), ?_⟩
    · refine List.isChain_append.2 ⟨htokens, hapart _, fun _ _ t ht _ => ?_⟩
      cases ht
      rfl
    · rw [operatorCount_append, hcount]
      rfl
    · simp [Expr.beside, Expr.height, hheight]

/-- No bound on the height can be told from the limits. -/
theorem height_unbounded :
    ¬∃ bound : Nat → Nat → Nat, ∀ (limits : Limits) (source : Text) (e : Expr),
      parseText limits source = .ok e → e.height ≤ bound limits.nesting limits.operators := by
  rintro ⟨bound, h⟩
  obtain ⟨tokens, e, htiles, hapart, hcount, hphrase, hheight⟩ := exists_phrase_groups (bound 1 0)
  have hscan : scan (groups (bound 1 0)) = .ok tokens := scanFrom_eq_ok_iff.2 ⟨htiles, hapart⟩
  have hparse : parse ⟨1, 0⟩ (groups (bound 1 0)) tokens = .ok e :=
    parse_of_phrase (.expression_of_power (.unraised hphrase)) (Nat.le_of_eq hcount) _
  have hle := h ⟨1, 0⟩ _ e (bind_eq_ok.2 ⟨tokens, hscan, hparse⟩)
  dsimp only at hle
  omega

end Grammar

end Calculator
