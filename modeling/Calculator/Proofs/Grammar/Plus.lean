import Mathlib.Order.MinMax
import Calculator.Proofs.Grammar.Relocation

/-! Pluses in front of operands. Main statement: a text with such a plus taken out has the same
expression, with all that stands after the plus a byte further to the front. -/

namespace Calculator

open Grammar (bind_eq_ok Phrase endsOperand endsOperand_append beginsWithNumber)

/-- An element of two lists in a row stands in one of them. -/
theorem split_of_append_eq {α : Type} {a b before after : List α} {x : α}
    (h : a ++ b = before ++ x :: after) :
    (∃ rest, a = before ++ x :: rest ∧ after = rest ++ b) ∨
      ∃ rest, b = rest ++ x :: after ∧ before = a ++ rest := by
  rcases List.append_eq_append_iff.1 h with ⟨rest, hbefore, hb⟩ | ⟨rest, ha, hafter⟩
  · exact .inr ⟨rest, hb, hbefore⟩
  · cases rest with
    | nil => exact .inr ⟨[], by simpa using hafter.symm, by simpa using ha.symm⟩
    | cons y rest =>
      obtain ⟨rfl, rfl⟩ := List.cons.inj hafter
      exact .inl ⟨rest, ha, rfl⟩

/-! ### Without a byte -/

namespace Span

/-- Where an offset is once the byte at `k` is taken out. -/
def pull (k n : Nat) : Nat := if n ≤ k then n else n - 1

/-- Where a span is once the byte at `k` is taken out. -/
def without (k : Nat) (span : Span) : Span := ⟨pull k span.start, pull k span.stop⟩

variable {k n : Nat}

theorem pull_of_le (h : n ≤ k) : pull k n = n := if_pos h

theorem pull_of_lt (h : k < n) : pull k n = n - 1 := if_neg (Nat.not_le.2 h)

theorem pull_mono (k : Nat) : Monotone (pull k) := by
  intro m n h
  unfold pull
  split <;> split <;> omega

theorem respected_without (k : Nat) : Respected (without k) := by
  intro a b
  simp only [cover, without, (pull_mono k).map_min, (pull_mono k).map_max]

end Span

namespace Tiles

variable {start : Nat} {text : Text} {tokens : List Lexeme}

theorem span_mem (h : Tiles start text tokens) : ∀ t ∈ tokens, start ≤ t.span.start ∧
    t.span.start ≤ t.span.stop ∧ t.span.stop ≤ start + text.byteLength := by
  induction h with
  | nil => simp
  | cons hpiece _ ih =>
    intro t ht
    rcases List.mem_cons.1 ht with rfl | ht
    · simp only [Text.byteLength_append]
      omega
    · have := ih t ht
      rw [Text.byteLength_append]
      omega

/-- The tokens on both sides of a byte, once it is taken out. -/
theorem without {front back : Text} {before after : List Lexeme} (hbefore : Tiles 0 front before)
    (hafter : Tiles (front.byteLength + 1) back after) :
    Tiles 0 front (before.map (Lexeme.mapSpan (Span.without front.byteLength))) ∧
      Tiles front.byteLength back
        (after.map (Lexeme.mapSpan (Span.without front.byteLength))) := by
  obtain ⟨after, hback, rfl⟩ := hafter.exists_forward
  have hstays : before.map (Lexeme.mapSpan (Span.without front.byteLength)) = before := by
    conv_rhs => rw [← List.map_id before]
    refine List.map_congr_left fun t ht => ?_
    obtain ⟨_, hle, hstop⟩ := hbefore.span_mem t ht
    rw [Nat.zero_add] at hstop
    simp only [Lexeme.mapSpan, Span.without, Span.pull_of_le hstop,
      Span.pull_of_le (Nat.le_trans hle hstop), id]
  have hmoves : (after.map (Lexeme.mapSpan (Span.forward 1))).map
      (Lexeme.mapSpan (Span.without front.byteLength)) = after := by
    conv_rhs => rw [← List.map_id after]
    rw [List.map_map]
    refine List.map_congr_left fun t ht => ?_
    obtain ⟨hstart, hle, _⟩ := hback.span_mem t ht
    simp only [Function.comp_apply, Lexeme.mapSpan, Span.without, Span.forward,
      Span.pull_of_lt (show front.byteLength < t.span.start + 1 by omega),
      Span.pull_of_lt (show front.byteLength < t.span.stop + 1 by omega), Nat.add_sub_cancel, id]
  rw [hstays, hmoves]
  exact ⟨hbefore, hback⟩

/-- A character that is no part of a number is a token. -/
theorem exists_single {a b : Text} {c : Char} (h : Tiles start (a ++ c :: b) tokens)
    (hc : isNumeric c = false) :
    ∃ before token span after, tokens = before ++ ⟨token, span⟩ :: after ∧
      Token.ofChar? c = some token ∧
      span = ⟨start + a.byteLength, start + a.byteLength + c.utf8Size⟩ ∧ Tiles start a before ∧
      Tiles (start + a.byteLength + c.utf8Size) b after := by
  generalize htext : a ++ c :: b = text at h
  induction h generalizing a with
  | nil => cases List.append_eq_nil_iff.1 htext |>.2
  | @cons start token piece text tokens hpiece hrest ih =>
    rcases split_of_append_eq htext.symm with ⟨rest, rfl, rfl⟩ | ⟨rest, rfl, rfl⟩
    · have hnumber : token.isNumber = false := by
        cases token with
        | number value =>
          rw [hpiece.1 c (by simp)] at hc
          cases hc
        | _ => rfl
      obtain ⟨d, heq, _, htoken, _⟩ := hpiece.single hnumber
      obtain ⟨rfl, hd⟩ := List.append_eq_singleton_iff.1 heq |>.resolve_right (by simp)
      obtain ⟨rfl, rfl⟩ := List.cons.inj hd
      exact ⟨[], token, _, tokens, rfl, htoken, by simp, .nil, by simpa using hrest⟩
    · obtain ⟨before, other, span, after, rfl, htoken, rfl, ha, hb⟩ := ih rfl
      refine ⟨_ :: before, other, _, after, rfl, htoken, ?_, .cons hpiece ha, ?_⟩
      · simp [Nat.add_assoc]
      · simpa [Nat.add_assoc] using hb

end Tiles

/-! ### Without a plus -/

namespace Grammar

theorem endsOperand_of_append {a b : List Lexeme} (h : endsOperand (a ++ b) = false) :
    endsOperand b = false := by
  by_cases hb : b = []
  · rw [hb]
    rfl
  · rwa [endsOperand_append hb] at h

theorem isNumber_of_endsOperand {tokens : List Lexeme} (h : endsOperand tokens = false) :
    ∀ t ∈ tokens.getLast?, t.token.isNumber = false := by
  intro t ht
  obtain ⟨token, span⟩ := t
  rw [endsOperand, Option.mem_def.1 ht] at h
  cases token with
  | number => cases h
  | _ => rfl

/-- A plus that follows no operand stands on one side of an operator that does. -/
theorem split_of_endsOperand {left right before after : List Lexeme} {t : Lexeme} {place : Span}
    (hleft : endsOperand left)
    (h : left ++ t :: right = before ++ ⟨.operator .add, place⟩ :: after)
    (hunary : endsOperand before = false) :
    (∃ rest, left = before ++ ⟨.operator .add, place⟩ :: rest ∧ after = rest ++ t :: right) ∨
      ∃ rest, right = rest ++ ⟨.operator .add, place⟩ :: after ∧ before = left ++ t :: rest ∧
        endsOperand rest = false := by
  rcases split_of_append_eq h with hrest | ⟨rest, hright, rfl⟩
  · exact .inl hrest
  · cases rest with
    | nil =>
      rw [List.append_nil, hleft] at hunary
      cases hunary
    | cons u rest =>
      obtain ⟨rfl, rfl⟩ := List.cons.inj hright
      rw [List.append_cons] at hunary
      exact .inr ⟨rest, rfl, rfl, endsOperand_of_append hunary⟩

/-- A plus in front of an operand leaves no trace in the tree. Where it is part of a number, the
number has to stand as if it was not. -/
theorem Phrase.without_plus {room : Nat} {form : Form} {tokens before after : List Lexeme}
    {place : Span} {e : Expr} (h : Phrase room form tokens e)
    (hsplit : tokens = before ++ ⟨.operator .add, place⟩ :: after)
    (hunary : Grammar.endsOperand before = false)
    (hplace : ∀ t ∈ after.head?, place.cover t.span = t.span) :
    Phrase room form (before ++ after) e := by
  induction h generalizing before after with
  | number => cases (List.append_eq_singleton_iff.1 hsplit.symm).resolve_left (by simp) |>.2
  | @group room opened inside closed _ hinside ih =>
    cases before with
    | nil => cases hsplit
    | cons t before =>
      obtain ⟨rfl, hinner⟩ := List.cons.inj hsplit
      have hbefore : Grammar.endsOperand before = false :=
        endsOperand_of_append (a := [⟨.opening, opened⟩]) hunary
      rcases split_of_append_eq hinner with ⟨rest, rfl, rfl⟩ | ⟨rest, heq, rfl⟩
      · rw [List.cons_append, ← List.append_assoc]
        exact .group (ih rfl hbefore fun t ht => hplace t (by simp [Option.mem_def.1 ht]))
      · cases (List.append_eq_singleton_iff.1 heq.symm).resolve_left (by simp) |>.2
  | single _ ih => exact .single (ih hsplit hunary hplace)
  | unraised _ ih => exact .unraised (ih hsplit hunary hplace)
  | unsigned _ ih => exact .unsigned (ih hsplit hunary hplace)
  | tighter _ ih => exact .tighter (ih hsplit hunary hplace)
  | beside hl hr ihl ihr =>
    rcases split_of_append_eq hsplit with ⟨rest, rfl, rfl⟩ | ⟨rest, rfl, rfl⟩
    · rw [← List.append_assoc]
      exact .beside (ihl rfl hunary fun t ht => hplace t (by simp [Option.mem_def.1 ht])) hr
    · rw [List.append_assoc]
      exact .beside hl (ihr rfl (endsOperand_of_append hunary) hplace)
  | raised hl hr ihl ihr =>
    rcases split_of_endsOperand hl.endsOperand hsplit hunary with
      ⟨rest, rfl, rfl⟩ | ⟨rest, rfl, rfl, hrest⟩
    · rw [← List.append_assoc]
      exact .raised (ihl rfl hunary fun t ht => hplace t (by simp [Option.mem_def.1 ht])) hr
    · rw [List.append_assoc]
      exact .raised hl (ihr rfl hrest hplace)
  | join hl hr ihl ihr =>
    rcases split_of_endsOperand hl.endsOperand hsplit hunary with
      ⟨rest, rfl, rfl⟩ | ⟨rest, rfl, rfl, hrest⟩
    · rw [← List.append_assoc]
      exact .join (ihl rfl hunary fun t ht => hplace t (by simp [Option.mem_def.1 ht])) hr
    · rw [List.append_assoc]
      exact .join hl (ihr rfl hrest hplace)
  | @fused room t sign value span rest e ht h ih =>
    cases before with
    | nil =>
      obtain ⟨rfl, rfl⟩ := List.cons.inj hsplit
      cases ht
      rw [show Span.cover _ span = span from hplace _ rfl] at h
      exact .unsigned h
    | cons u before =>
      obtain ⟨rfl, hnumber⟩ := List.cons.inj hsplit
      cases before with
      | nil => cases hnumber
      | cons v before =>
        obtain ⟨rfl, rfl⟩ := List.cons.inj hnumber
        refine .fused ht (@ih (_ :: before) after rfl ?_ hplace)
        cases before with
        | nil => cases hunary
        | cons w before => exact hunary
  | @signed room position t sign tokens operand ht hplain h ih =>
    cases before with
    | nil =>
      obtain ⟨rfl, rfl⟩ := List.cons.inj hsplit
      cases ht
      exact .unsigned (h.mono (Nat.le_succ room))
    | cons u before =>
      obtain ⟨rfl, rfl⟩ := List.cons.inj hsplit
      have hbefore : Grammar.endsOperand before = false := endsOperand_of_append (a := [t]) hunary
      refine .signed ht (fun hp => ?_) (ih rfl hbefore hplace)
      have hne : before ≠ [] := by
        rintro rfl
        cases h.head_beginsOperand (.inr (.inr rfl)) _ rfl
      have hbegins : ¬beginsWithNumber (before ++ ⟨.operator .add, place⟩ :: after) := hplain hp
      rw [beginsWithNumber_append hne] at hbegins
      exact fun h => hbegins ((beginsWithNumber_append hne after).1 h)

end Grammar

/-! ### Texts -/

/-- The text is empty or ends in an opening parenthesis or an operator, so that a plus after it is
a sign. -/
def Text.ExpectsOperand (text : Text) : Prop :=
  ∀ c ∈ text.getLast?, c ∈ ['(', '+', '-', '*', '/', '^']

instance : DecidablePred Text.ExpectsOperand := fun text => Option.decidableForallMem text.getLast?

theorem Text.ExpectsOperand.endsOperand {start : Nat} {text : Text} {tokens : List Lexeme}
    (h : text.ExpectsOperand) (htiles : Tiles start text tokens) :
    endsOperand tokens = false := by
  rcases List.eq_nil_or_concat' tokens with rfl | ⟨before, t, rfl⟩
  · rfl
  · obtain ⟨a, b, rfl, _, hb⟩ := htiles.split
    rw [endsOperand_append (List.cons_ne_nil _ _)]
    cases hb with
    | @cons _ token piece _ _ hpiece hrest =>
      cases hrest
      rw [List.append_nil] at h
      cases token with
      | number value =>
        obtain ⟨run, c, rfl⟩ := (List.eq_nil_or_concat' piece).resolve_left hpiece.ne_nil
        have hc := h c (by simp)
        have hnumeric := hpiece.1 c (by simp)
        simp only [List.mem_cons, List.not_mem_nil, or_false] at hc
        rcases hc with rfl | rfl | rfl | rfl | rfl | rfl <;> cases hnumeric
      | closing =>
        obtain rfl := hpiece
        have := h ')' (by simp)
        simp at this
      | _ => rfl

/-- A text with a unary plus, and the same without it. -/
theorem parseText_without_plus {limits : Limits} {front back : Text} {e : Expr}
    (hunary : front.ExpectsOperand) (h : parseText limits (front ++ '+' :: back) = .ok e) :
    parseText limits (front ++ back) = .ok (e.mapSpan (Span.without front.byteLength)) := by
  obtain ⟨tokens, hscan, hparse⟩ := bind_eq_ok.1 h
  obtain ⟨htiles, hapart⟩ := scanFrom_eq_ok_iff.1 hscan
  obtain ⟨hphrase, hoperators⟩ := Grammar.parse_eq_ok_iff.1 hparse
  obtain ⟨before, token, span, after, rfl, htoken, rfl, hbefore, hafter⟩ :=
    htiles.exists_single rfl
  obtain rfl : .operator .add = token := Option.some.inj htoken
  rw [Nat.zero_add] at hafter
  obtain ⟨hbefore', hafter'⟩ := hbefore.without hafter
  have hmapped := hphrase.mapSpan (Span.respected_without front.byteLength)
  rw [List.map_append, List.map_cons] at hmapped
  have hshort := hmapped.without_plus rfl (hunary.endsOperand hbefore') fun t ht => ?_
  · refine bind_eq_ok.2 ⟨_, scanFrom_eq_ok_iff.2 ⟨hbefore'.append (by rwa [Nat.zero_add]), ?_⟩,
      Grammar.parse_of_phrase hshort ?_ _⟩
    · rw [← List.map_append, apart_mapSpan_iff]
      obtain ⟨hleft, hright⟩ := hapart.of_append
      refine List.isChain_append.2 ⟨hleft, hright.tail, fun t ht _ _ hnumber => ?_⟩
      have hends := Grammar.isNumber_of_endsOperand (hunary.endsOperand hbefore) t ht
      rw [hends] at hnumber
      cases hnumber
    · rw [← List.map_append, operatorCount_mapSpan]
      refine Nat.le_trans (List.Sublist.countP_le ?_) hoperators
      exact (List.Sublist.refl before).append (List.sublist_cons_self _ _)
  · -- the plus is left with an empty place, right in front of what follows
    obtain ⟨rest, hrest⟩ := List.head?_eq_some_iff.1 ht
    obtain ⟨token, span⟩ := t
    rw [hrest] at hafter'
    have hstart : span.start = front.byteLength := hafter'.start_eq
    obtain ⟨_, hle, _⟩ := hafter'.span_mem ⟨token, span⟩ List.mem_cons_self
    have hplus : Span.pull front.byteLength (front.byteLength + '+'.utf8Size) =
        front.byteLength := Span.pull_of_lt (Nat.lt_succ_self front.byteLength)
    rw [Span.without, Nat.zero_add, Span.pull_of_le (Nat.le_refl _), hplus, Span.cover, ← hstart,
      Nat.min_self, Nat.max_eq_right hle]

end Calculator
