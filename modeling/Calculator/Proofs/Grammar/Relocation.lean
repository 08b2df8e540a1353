import Calculator.Proofs.Grammar.Acceptance
import Calculator.Proofs.Token.Tiling

/-! Phrases at another place. Main statement: tokens that are moved along a text write the same
expression, moved as far. -/

namespace Calculator

namespace Span

/-- The span at a place `n` bytes further on. -/
def forward (n : Nat) (span : Span) : Span := ⟨span.start + n, span.stop + n⟩

/-- The span at a place `n` bytes further to the front. -/
def back (n : Nat) (span : Span) : Span := ⟨span.start - n, span.stop - n⟩

/-- What covers two spans, covers them after the map. -/
def Respected (f : Span → Span) : Prop := ∀ a b, f (cover a b) = cover (f a) (f b)

theorem respected_forward (n : Nat) : Respected (forward n) := by
  intro a b
  simp only [cover, forward, mk.injEq]
  omega

theorem respected_back (n : Nat) : Respected (back n) := by
  intro a b
  simp only [cover, back, mk.injEq]
  omega

@[simp] theorem back_forward (n : Nat) (span : Span) : (span.forward n).back n = span := by
  simp [back, forward]

end Span

/-- The token elsewhere. -/
def Lexeme.mapSpan (f : Span → Span) (t : Lexeme) : Lexeme := ⟨t.token, f t.span⟩

/-- The expression with all its nodes elsewhere. -/
def Expr.mapSpan (f : Span → Span) : Expr → Expr
  | literal value span => literal value (f span)
  | group inner span => group (inner.mapSpan f) (f span)
  | negate operand span => negate (operand.mapSpan f) (f span)
  | binary op left right span => binary op (left.mapSpan f) (right.mapSpan f) (f span)
  | adjacent left right span => adjacent (left.mapSpan f) (right.mapSpan f) (f span)

section

variable {f : Span → Span}

@[simp] theorem Expr.span_mapSpan (e : Expr) : (e.mapSpan f).span = f e.span := by
  cases e <;> rfl

theorem Expr.mapSpan_join (hf : Span.Respected f) (op : BinaryOp) (left right : Expr) :
    (join op left right).mapSpan f = join op (left.mapSpan f) (right.mapSpan f) := by
  rw [join, mapSpan, hf, join, span_mapSpan, span_mapSpan]

theorem Expr.mapSpan_beside (hf : Span.Respected f) (left right : Expr) :
    (beside left right).mapSpan f = beside (left.mapSpan f) (right.mapSpan f) := by
  rw [beside, mapSpan, hf, beside, span_mapSpan, span_mapSpan]

@[simp] theorem Expr.mapSpan_back_forward (n : Nat) (e : Expr) :
    (e.mapSpan (Span.forward n)).mapSpan (Span.back n) = e := by
  induction e <;> simp_all [mapSpan]

theorem Lexeme.mapSpan_back_forward (n : Nat) (tokens : List Lexeme) :
    (tokens.map (mapSpan (Span.forward n))).map (mapSpan (Span.back n)) = tokens := by
  simp [mapSpan, Function.comp_def]

theorem operatorCount_mapSpan (tokens : List Lexeme) :
    operatorCount (tokens.map (Lexeme.mapSpan f)) = operatorCount tokens := by
  rw [operatorCount, List.countP_map]
  rfl

theorem apart_mapSpan_iff {tokens : List Lexeme} :
    Apart (tokens.map (Lexeme.mapSpan f)) ↔ Apart tokens := List.isChain_map _

namespace Grammar

theorem mapSpan_signed (hf : Span.Respected f) (place : Span) (operand : Expr) (sign : Sign) :
    (signed place operand sign).mapSpan f = signed (f place) (operand.mapSpan f) sign := by
  cases sign with
  | plus => rfl
  | minus => rw [signed, Expr.mapSpan, hf, signed, Expr.span_mapSpan]

theorem beginsWithNumber_mapSpan (tokens : List Lexeme) :
    beginsWithNumber (tokens.map (Lexeme.mapSpan f)) ↔ beginsWithNumber tokens := by
  cases tokens with
  | nil => exact Iff.rfl
  | cons t tokens =>
    obtain ⟨token, span⟩ := t
    cases token <;> exact Iff.rfl

/-- Spans are of no account to the rules but for how they cover each other. -/
theorem Phrase.mapSpan {room : Nat} {form : Form} {tokens : List Lexeme} {e : Expr}
    (h : Phrase room form tokens e) (hf : Span.Respected f) :
    Phrase room form (tokens.map (Lexeme.mapSpan f)) (e.mapSpan f) := by
  induction h with
  | number => exact .number
  | group _ ih =>
    rw [List.map_cons, List.map_append, Expr.mapSpan, hf]
    exact .group ih
  | single _ ih => exact .single ih
  | unraised _ ih => exact .unraised ih
  | unsigned _ ih => exact .unsigned ih
  | tighter _ ih => exact .tighter ih
  | beside _ _ ihl ihr =>
    rw [List.map_append, Expr.mapSpan_beside hf]
    exact .beside ihl ihr
  | raised _ _ ihl ihr =>
    rw [List.map_append, List.map_cons, Expr.mapSpan_join hf]
    exact .raised ihl ihr
  | join _ _ ihl ihr =>
    rw [List.map_append, List.map_cons, Expr.mapSpan_join hf]
    exact .join ihl ihr
  | @fused room t sign value span rest e ht _ ih =>
    rw [List.map_cons, Lexeme.mapSpan, hf] at ih
    exact .fused (t := t.mapSpan f) ht ih
  | @signed room position t sign tokens operand ht hplain _ ih =>
    rw [mapSpan_signed hf]
    refine .signed (t := t.mapSpan f) ht (fun hp => ?_) ih
    rw [beginsWithNumber_mapSpan]
    exact hplain hp

/-- What tokens further on write is what they would write here, further on. -/
theorem Phrase.exists_of_forward {room n : Nat} {tokens : List Lexeme} {e : Expr}
    (h : Phrase room (.level additive .leading)
      (tokens.map (Lexeme.mapSpan (Span.forward n))) e) :
    ∃ e', Phrase room (.level additive .leading) tokens e' ∧ e = e'.mapSpan (Span.forward n) := by
  have hback := h.mapSpan (Span.respected_back n)
  rw [Lexeme.mapSpan_back_forward] at hback
  exact ⟨_, hback, h.unique (hback.mapSpan (Span.respected_forward n))⟩

end Grammar

end

namespace Tiles

variable {start n : Nat} {text : Text} {tokens : List Lexeme}

theorem forward (h : Tiles start text tokens) (n : Nat) :
    Tiles (start + n) text (tokens.map (Lexeme.mapSpan (Span.forward n))) := by
  induction h with
  | nil => exact .nil
  | cons hpiece _ ih =>
    rw [Nat.add_right_comm] at ih
    rw [List.map_cons, Lexeme.mapSpan, Span.forward, Nat.add_right_comm]
    exact .cons hpiece ih

/-- Tiles further on are the tiles of the text moved forward. -/
theorem exists_forward (h : Tiles (start + n) text tokens) :
    ∃ tokens', Tiles start text tokens' ∧
      tokens = tokens'.map (Lexeme.mapSpan (Span.forward n)) := by
  induction tokens generalizing start text with
  | nil =>
    cases h
    exact ⟨[], .nil, rfl⟩
  | cons t tokens ih =>
    cases h with
    | cons hpiece hrest =>
      rw [Nat.add_right_comm] at hrest
      obtain ⟨tokens', htiles, rfl⟩ := ih hrest
      refine ⟨_, .cons hpiece htiles, ?_⟩
      rw [List.map_cons, Lexeme.mapSpan, Span.forward, Nat.add_right_comm]

end Tiles

end Calculator
