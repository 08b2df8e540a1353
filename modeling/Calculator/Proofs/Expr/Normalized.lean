import Mathlib.Logic.Relation
import Calculator.Proofs.Expr.Rereading
import Calculator.Proofs.Text.Normalization

/-! Normalized texts, without blanks and without signs side by side. Main statement: what is read on
the way to the value of a normalized text is normalized too, so no sign comes right after a sign in
any of the token lists that are parsed. -/

namespace Calculator

open Grammar (bind_eq_ok)

namespace Text

structure Normalized (text : Text) : Prop where
  unblank : ∀ c ∈ text, isBlank c = false
  signsApart : text.SignsApart

theorem Normalized.part {text piece : Text} (h : text.Normalized) (hin : piece <:+: text) :
    piece.Normalized where
  unblank c hc := h.unblank c (hin.subset hc)
  signsApart := List.IsChain.infix h.signsApart hin

theorem isSign_of_isBlank {c : Char} (h : isBlank c) : isSign c = false := by
  rw [isSign_eq_false_iff, Option.eq_none_iff_forall_not_mem]
  intro s hs
  rw [Sign.ofChar?_eq_some_iff.1 hs] at h
  cases s <;> cases h

/-- Joining signs brings in no blanks, and keeps none apart that were not there. -/
theorem normalized_normalizeSigns {text : Text} (h : ∀ c ∈ text, isBlank c = false) :
    (normalizeSigns text).Normalized where
  signsApart := signsApart_normalizeSigns text
  unblank c hc := by
    cases hblank : isBlank c with
    | false => rfl
    | true =>
      have hcount := count_normalizeSigns (isSign_eq_false_iff.1 (isSign_of_isBlank hblank)) text
      have hmem : c ∈ text := List.count_pos_iff.1 (hcount ▸ List.count_pos_iff.2 hc)
      rw [h c hmem] at hblank
      cases hblank

/-- Numbers are written without blanks. -/
theorem isBlank_of_isWritten {c : Char} (h : isWritten c) : isBlank c = false := by
  have hsize : 43 ≤ c.toNat ∧ c.toNat ≤ 122 := by
    simp only [isWritten, isNumeric, Bool.or_eq_true, beq_iff_eq] at h
    rcases h with ((hdigit | rfl) | hsign) | halpha
    · obtain ⟨hlow, hhigh⟩ := Char.isDigit_iff_toNat.1 hdigit
      exact ⟨Nat.le_trans (by decide) hlow, Nat.le_trans hhigh (by decide)⟩
    · decide
    · obtain ⟨s, hs⟩ := Option.isSome_iff_exists.1 hsign
      rw [Sign.ofChar?_eq_some_iff.1 hs]
      cases s <;> decide
    · rcases Bool.or_eq_true_iff.1 (show (c.isUpper || c.isLower) = true from halpha) with
        hupper | hlower
      · have hletter : 'A'.val ≤ c.val ∧ c.val ≤ 'Z'.val := of_decide_eq_true hupper
        rw [UInt32.le_iff_toNat_le, UInt32.le_iff_toNat_le] at hletter
        exact ⟨Nat.le_trans (by decide) hletter.1, Nat.le_trans hletter.2 (by decide)⟩
      · obtain ⟨hlow, hhigh⟩ := Bool.and_eq_true_iff.1 hlower
        have hlow := UInt32.le_iff_toNat_le.1 (of_decide_eq_true hlow)
        have hhigh := UInt32.le_iff_toNat_le.1 (of_decide_eq_true hhigh)
        exact ⟨Nat.le_trans (by decide) hlow, Nat.le_trans hhigh (by decide)⟩
  simp only [isBlank, Bool.or_eq_false_iff, Bool.and_eq_false_iff, decide_eq_false_iff_not,
    beq_eq_false_iff_ne]
  omega

end Text

/-! ### Tokens of normalized texts -/

/-- Signs among the tokens lie apart where they do in the text. -/
theorem Tiles.signsApart {start : Nat} {text : Text} {tokens : List Lexeme}
    (h : Tiles start text tokens) (hapart : text.SignsApart) :
    tokens.IsChain fun a b => a.token.sign?.isSome → b.token.sign? = none := by
  induction h with
  | nil => exact .nil
  | @cons start token piece text tokens hpiece hrest ih =>
    obtain ⟨_, htext, hnext⟩ := List.isChain_append.1 hapart
    refine List.isChain_cons.2 ⟨?_, ih htext⟩
    intro u hu hsome
    obtain ⟨s, hs⟩ := Option.isSome_iff_exists.1 hsome
    cases hsign : u.token.sign? with
    | none => rfl
    | some t =>
      -- both are written as their one character, and these are neighbours
      cases hrest with
      | nil => cases hu
      | cons hpiece' hrest =>
        cases hu
        obtain rfl := hpiece.eq_of_sign? hs
        obtain rfl := hpiece'.eq_of_sign? hsign
        have := hnext s.toChar rfl t.toChar rfl (by simp [Text.isSign])
        simp [Text.isSign] at this

section

variable {settings : Settings} {source : Text} {e : Expr}

namespace Expr

theorem normalized_joinedText {read : Reader} {left right : Expr} {joined : Text}
    (hleft : left.Placed source) (hright : right.Placed source)
    (h : joinedText settings read source left right = .ok joined) : joined.Normalized := by
  obtain ⟨first, hfirst, h⟩ := bind_eq_ok.1 h
  obtain ⟨second, hsecond, h⟩ := bind_eq_ok.1 h
  cases h
  refine Text.normalized_normalizeSigns fun c hc => Text.isBlank_of_isWritten ?_
  rcases List.mem_append.1 hc with hc | hc
  · exact isWritten_of_mem_operandText hleft hfirst c hc
  · exact isWritten_of_mem_operandText hright hsecond c hc

end Expr

/-- What the expression of a normalized text is read from is normalized, be it a part of that text
or made of values. -/
theorem normalized_of_mem_reads (read : Reader)
    (hparse : parseText settings.toLimits source = .ok e) (h : source.Normalized) :
    ∀ inner ∈ e.reads settings read source, inner.Normalized := by
  have hplaced := (places_of_parseText hparse).nodes
  refine Expr.forall_mem_reads (fun base exponent span _ fraction hsome => ?_)
    fun left right span hmem joined hjoined => ?_
  · obtain ⟨hnumerator, hdenominator⟩ := Fraction.sides_infix hsome
    exact ⟨h.part hnumerator, h.part hdenominator⟩
  · obtain ⟨hleft, hright⟩ := Expr.mem_nodes_of_adjacent hmem
    exact Expr.normalized_joinedText (hplaced _ hleft) (hplaced _ hright) hjoined

/-- The evaluation of the first text comes to read the second one. -/
def Rereads (settings : Settings) (source inner : Text) : Prop :=
  ∃ e, parseText settings.toLimits source = .ok e ∧
    inner ∈ e.reads settings (evalText settings) source

/-- Whatever is read in the evaluation of a text, however far down, has no blanks and no two signs
side by side, and neither do its tokens. The value depends on nothing that is not so. -/
theorem evaluate_reads_normalized {text : Text}
    (h : Relation.ReflTransGen (Rereads settings) text.stripBlanks.normalizeSigns source) :
    (∀ c ∈ source, Text.isBlank c = false) ∧
    (source.IsChain fun a b => Text.isSign a → Text.isSign b = false) ∧
    (∀ tokens, scan source = .ok tokens →
      tokens.IsChain fun a b => a.token.sign?.isSome → b.token.sign? = none) ∧
    ∀ read : Reader, (∀ inner : Text, inner.Normalized → read inner = evalText settings inner) →
      evalTextWith settings read source = evalText settings source := by
  have hnormal : source.Normalized := by
    induction h with
    | refl => exact Text.normalized_normalizeSigns fun c hc => (Text.mem_stripBlanks.1 hc).2
    | tail _ hstep ih =>
      obtain ⟨e, hparse, hmem⟩ := hstep
      exact normalized_of_mem_reads _ hparse ih _ hmem
  refine ⟨hnormal.unblank, hnormal.signsApart, fun tokens hscan => ?_, fun read hread => ?_⟩
  · exact (scanFrom_eq_ok_iff.1 hscan).1.signsApart hnormal.signsApart
  · rw [evalText_eq, evalTextWith, evalTextWith]
    cases hparse : parseText settings.toLimits source with
    | error error => rfl
    | ok e =>
      exact e.eval_asks.congr fun inner hmem =>
        hread inner (normalized_of_mem_reads _ hparse hnormal _ hmem)

/-- A denominator of two operands side by side, the second one after a run of signs. -/
theorem evaluate_reads_normalized_joined :
    Rereads {} (Text.normalizeSigns (Text.stripBlanks "(1) 2 ^ (4/(2)(- - -3))".toList))
      "(2)(-3)".toList ∧
    Rereads {} "(2)(-3)".toList "2-3".toList ∧
    "2-3".toList.IsChain fun a b => Text.isSign a → Text.isSign b = false := by
  have hpower : Rereads {} (Text.normalizeSigns (Text.stripBlanks "(1) 2 ^ (4/(2)(- - -3))".toList))
      "(2)(-3)".toList := by
    refine ⟨.join .pow (.beside (.group (.literal 1 ⟨1, 2⟩) ⟨0, 3⟩) (.literal 2 ⟨3, 4⟩))
      (.group (.join .div (.literal 4 ⟨6, 7⟩) (.beside (.group (.literal 2 ⟨9, 10⟩) ⟨8, 11⟩)
        (.group (.literal (-3) ⟨12, 14⟩) ⟨11, 15⟩))) ⟨5, 16⟩), ?_, ?_⟩
    · decide +kernel
    · decide +kernel
  have hjoined : Rereads {} "(2)(-3)".toList "2-3".toList :=
    ⟨.beside (.group (.literal 2 ⟨1, 2⟩) ⟨0, 3⟩) (.group (.literal (-3) ⟨4, 6⟩) ⟨3, 7⟩),
      by decide +kernel, by decide +kernel⟩
  exact ⟨hpower, hjoined, (evaluate_reads_normalized (.tail (.single hpower) hjoined)).2.1⟩
end

end Calculator
