import Calculator.Proofs.Expr.Normalized
import Calculator.Proofs.Expr.Plus
import Calculator.Proofs.Grammar.Height
import Calculator.Proofs.Numeral.Parts

/-! Texts that are one number, with or without a sign, and what numbers are written as. Main
statement: what is written for a double has that double as its value exactly if it is finite. -/

namespace Calculator

open Grammar (bind_eq_ok)

/-! ### Written numbers -/

namespace Numeral

/-- What is written for doubles that are not finite, without the sign. -/
def words : List Text := [['i', 'n', 'f'], ['N', 'a', 'N']]

/-- The text is the word, with or without a minus in front. -/
def Spells (word text : Text) : Prop := word ∈ words ∧ (text = word ∨ text = '-' :: word)

theorem exists_letter_of_mem_words {word : Text} (h : word ∈ words) :
    ∃ c rest, word = c :: rest ∧ isNumeric c = false ∧ Token.ofChar? c = none := by
  simp only [words, List.mem_cons, List.not_mem_nil, or_false] at h
  rcases h with rfl | rfl <;> exact ⟨_, _, rfl, rfl, rfl⟩

/-- A finite double is written as digits and points, behind a minus if it has one. -/
theorem exists_run_of_write {x : Float} (h : magnitude x < infinity) :
    ∃ run y, (Token.number y).Writes run ∧
      (write x = run ∧ x = y ∨ write x = '-' :: run ∧ x = -y) := by
  have hrun : (Token.number (ofMagnitude false (magnitude x))).Writes
      (Decimal.shortest (magnitude x)).text := by
    refine ⟨fun c hc => Decimal.isNumeric_of_mem_text hc, ?_⟩
    rw [read?_text, Decimal.magnitude_shortest h]
  refine ⟨_, _, hrun, ?_⟩
  have hx := ofMagnitude_magnitude x
  simp only [write, if_neg (Nat.not_lt_of_lt h), if_neg (Nat.ne_of_lt h)]
  cases hsign : isNegative x with
  | false =>
    rw [hsign] at hx
    exact .inl ⟨if_neg Bool.false_ne_true, hx.symm⟩
  | true =>
    have hneg : -ofMagnitude false (magnitude x) = ofMagnitude true (magnitude x) :=
      neg_ofMagnitude false (magnitude_lt x)
    rw [hsign, ← hneg] at hx
    exact .inr ⟨if_pos rfl, hx.symm⟩

/-- So it is written as the number that it is. -/
theorem writesSigned_write {x : Float} (h : magnitude x < infinity) :
    (Token.number x).WritesSigned (write x) := by
  obtain ⟨run, y, hrun, hwrite | ⟨hwrite, hx⟩⟩ := exists_run_of_write h
  · exact ⟨run, y, hrun, .inl hwrite⟩
  · exact ⟨run, y, hrun, .inr ⟨.minus, hwrite, hx⟩⟩

/-- Any other double is written as a word, behind a minus if it is negative. -/
theorem exists_spells_write {x : Float} (h : infinity ≤ magnitude x) :
    ∃ word, Spells word (write x) := by
  unfold write
  split
  · exact ⟨['N', 'a', 'N'], by simp [words], .inl rfl⟩
  · next hle =>
    simp only [if_pos (Nat.le_antisymm (Nat.le_of_not_lt hle) h)]
    split
    · exact ⟨['i', 'n', 'f'], by simp [words], .inr rfl⟩
    · exact ⟨['i', 'n', 'f'], by simp [words], .inl rfl⟩

end Numeral

/-! ### Signs in front -/

namespace Text

theorem isSign_of_isNumeric {c : Char} (h : isNumeric c) : isSign c = false :=
  isSign_eq_false_iff.2 (Sign.ofChar?_of_isNumeric h)

theorem normalizeSigns_eq_self {text : Text} (h : text.SignsApart) :
    normalizeSigns text = text := by
  rw [normalizeSigns_eq_joinAfter, joinAfter_eq_self h]

/-- Nothing in the text is a sign, or its first character alone, with something behind it. -/
structure SignedFirst (text : Text) : Prop where
  tail : ∀ c ∈ text.tail, isSign c = false
  last : ∀ c ∈ text.getLast?, isSign c = false

theorem SignedFirst.signsApart_append {a b : Text} (ha : a.SignedFirst) (hb : b.SignedFirst) :
    SignsApart (a ++ b) := by
  have htail {text : Text} (h : ∀ c ∈ text.tail, isSign c = false) : text.SignsApart := by
    cases text with
    | nil => exact .nil
    | cons c text =>
      have hrest := List.pairwise_of_forall_mem_list (l := text)
        (r := fun a b => isSign a → isSign b = false) fun _ _ d hd _ => h d hd
      exact (List.pairwise_cons.2 ⟨fun d hd _ => h d hd, hrest⟩).isChain
  refine List.isChain_append.2 ⟨htail ha.tail, htail hb.tail, fun c hc d _ hsign => ?_⟩
  rw [ha.last c hc] at hsign
  cases hsign

theorem signedFirst_of_run {run : Text} (h : ∀ c ∈ run, isSign c = false) : run.SignedFirst :=
  ⟨fun c hc => h c (List.mem_of_mem_tail hc), fun c hc => h c (List.mem_of_mem_getLast? hc)⟩

theorem signedFirst_cons {c : Char} {run : Text} (hne : run ≠ [])
    (h : ∀ c ∈ run, isSign c = false) : SignedFirst (c :: run) := by
  refine ⟨h, fun d hd => h d ?_⟩
  rw [List.getLast?_cons_of_ne_nil hne] at hd
  exact List.mem_of_mem_getLast? hd

end Text

theorem Token.WritesSigned.signedFirst {x : Float} {text : Text}
    (h : (Token.number x).WritesSigned text) : text.SignedFirst := by
  obtain ⟨run, y, hrun, htext⟩ := h
  have hsign : ∀ c ∈ run, Text.isSign c = false := fun c hc =>
    Text.isSign_of_isNumeric (hrun.1 c hc)
  rcases htext with ⟨rfl, _⟩ | ⟨sign, rfl, _⟩
  · exact Text.signedFirst_of_run hsign
  · exact Text.signedFirst_cons hrun.ne_nil hsign

theorem Numeral.Spells.signedFirst {word text : Text} (h : Spells word text) :
    text.SignedFirst := by
  obtain ⟨hword, htext⟩ := h
  have hne : word ≠ [] := by
    obtain ⟨_, _, rfl, _⟩ := exists_letter_of_mem_words hword
    exact List.cons_ne_nil _ _
  have hsign : ∀ c ∈ word, Text.isSign c = false := by
    simp only [words, List.mem_cons, List.not_mem_nil, or_false] at hword
    rcases hword with rfl | rfl <;> simp [Text.isSign, Sign.ofChar?]
  rcases htext with rfl | rfl
  · exact Text.signedFirst_of_run hsign
  · exact Text.signedFirst_cons hne hsign

/-! ### The value of a number -/

section

variable {settings : Settings} {text : Text} {x : Float}

theorem Sign.exists_operator (sign : Sign) :
    ∃ op, (Token.operator op).Writes [sign.toChar] ∧ (Token.operator op).sign? = some sign := by
  cases sign
  · exact ⟨.add, rfl, rfl⟩
  · exact ⟨.sub, rfl, rfl⟩

theorem Token.Writes.tiles {token : Token} {piece : Text} (h : token.Writes piece) (start : Nat) :
    Tiles start piece [⟨token, ⟨start, start + piece.byteLength⟩⟩] := by
  have := Tiles.cons h (@Tiles.nil (start + piece.byteLength))
  rwa [List.append_nil] at this

theorem Apart.append {a b : List Lexeme} (ha : Apart a) (hb : Apart b)
    (hnext : ∀ t ∈ b.head?, t.token.isNumber = false) : Apart (a ++ b) :=
  List.isChain_append.2 ⟨ha, hb, fun _ _ t ht _ => hnext t ht⟩

/-- A number with or without a sign is a literal. -/
theorem Token.WritesSigned.exists_phrase (h : (Token.number x).WritesSigned text) (room : Nat) :
    ∃ tokens span, Tiles 0 text tokens ∧ Apart tokens ∧ operatorCount tokens ≤ 1 ∧
      Grammar.Phrase room (.level [] .leading) tokens (.literal x span) := by
  obtain ⟨run, y, hrun, htext⟩ := h
  rcases htext with ⟨rfl, rfl⟩ | ⟨sign, rfl, rfl⟩
  · exact ⟨_, _, hrun.tiles 0, .singleton _, by simp [operatorCount, Token.isOperator],
      .unsigned (.unraised (.single .number))⟩
  · obtain ⟨op, hwrites, hsign⟩ := sign.exists_operator
    have hapart (h : (Token.operator op).isNumber) : (Token.number y).isNumber = false :=
      absurd h Bool.false_ne_true
    exact ⟨_, _, .cons hwrites (hrun.tiles _), List.isChain_pair.2 hapart,
      by simp [operatorCount, Token.isOperator], .fused hsign (.unraised (.single .number))⟩

theorem evalText_of_phrase {tokens : List Lexeme} {e : Expr} (htiles : Tiles 0 text tokens)
    (hapart : Apart tokens) (hoperators : operatorCount tokens ≤ settings.operators)
    (hphrase : Grammar.Phrase settings.nesting (.level Grammar.additive .leading) tokens e) :
    evalText settings text = e.value settings text := by
  refine evalText_of_parseText (bind_eq_ok.2 ⟨tokens, ?_, ?_⟩)
  · exact scanFrom_eq_ok_iff.2 ⟨htiles, hapart⟩
  · exact Grammar.parse_of_phrase hphrase hoperators text

/-- A number with or without a sign has the value that it writes. -/
theorem evalText_number (hoperators : 1 ≤ settings.operators)
    (h : (Token.number x).WritesSigned text) : evalText settings text = .ok x := by
  obtain ⟨tokens, span, htiles, hapart, hcount, hphrase⟩ := h.exists_phrase settings.nesting
  rw [evalText_of_phrase htiles hapart (Nat.le_trans hcount hoperators)
    (.tighter (.tighter (.tighter (.tighter hphrase))))]
  rfl

/-- What is no token keeps the text from being read, wherever it stands among tokens. -/
theorem evalText_of_scanFrom {front rest : Text} {tokens : List Lexeme} {error : ParseError}
    (htiles : Tiles 0 front tokens) (hapart : Apart tokens)
    (hborder : ∀ t ∈ tokens.getLast?, t.token.isNumber → ∀ c ∈ rest.head?, isNumeric c = false)
    (h : ∀ start, scanFrom start rest = .error error) :
    evalText settings (front ++ rest) = .error (.parse error) := by
  have hscan : scan (front ++ rest) = .error error := by
    rw [scan, scanFrom_append htiles hapart hborder, h]
    rfl
  rw [evalText_eq, evalTextWith, parseText, hscan]
  rfl

/-- A word is no number, nor is one with a minus in front. -/
theorem evalText_of_spells {front rest word : Text} {tokens : List Lexeme}
    (htiles : Tiles 0 front tokens) (hapart : Apart tokens) (h : Numeral.Spells word text) :
    evalText settings (front ++ (text ++ rest)) =
      .error (.parse (.malformedNumber (word.take 1))) := by
  obtain ⟨hword, htext⟩ := h
  obtain ⟨c, letters, rfl, hc, hnone⟩ := Numeral.exists_letter_of_mem_words hword
  have hscan (start : Nat) :
      scanFrom start (c :: letters ++ rest) = .error (.malformedNumber [c]) := by
    rw [List.cons_append, scanFrom, if_neg (by simp [hc])]
    simp only [hnone]
  have hborder : ∀ d ∈ (c :: letters ++ rest).head?, isNumeric d = false := by
    rintro _ ⟨⟩
    exact hc
  rcases htext with rfl | rfl
  · exact evalText_of_scanFrom htiles hapart (fun _ _ _ => hborder) hscan
  · have hminus : (Token.operator .sub).Writes ['-'] := rfl
    rw [List.cons_append, List.append_cons]
    exact evalText_of_scanFrom (htiles.append (hminus.tiles _))
      (hapart.append (.singleton _) (by rintro _ ⟨⟩; rfl)) (fun _ _ _ => hborder) hscan

end

/-- What is written for a double has that double as its value if it is finite, and only then. So a
finite result, whatever text it is the value of, evaluates to itself, a negative zero included. -/
theorem evaluate_write {settings : Settings} (hoperators : 1 ≤ settings.operators) (x : Float) :
    evaluate settings (Numeral.write x) = .ok x ↔ x.isFinite := by
  have hblank : (Numeral.write x).stripBlanks = Numeral.write x := by
    refine List.filter_eq_self.2 fun c hc => ?_
    rw [Text.isBlank_of_isWritten (Numeral.isWritten_of_mem_write x c hc)]
    rfl
  have hvalue (h : (Numeral.write x).SignedFirst) :
      evaluate settings (Numeral.write x) = evalText settings (Numeral.write x) := by
    have hapart := h.signsApart_append (b := []) ⟨by simp, by simp⟩
    rw [List.append_nil] at hapart
    rw [evaluate, hblank, Text.normalizeSigns_eq_self hapart]
  rw [Numeral.isFinite_iff]
  constructor
  · intro h
    refine Nat.lt_of_not_le fun hle => ?_
    obtain ⟨word, hword⟩ := Numeral.exists_spells_write hle
    have herror := @evalText_of_spells settings _ [] [] _ _ .nil .nil hword
    rw [List.nil_append, List.append_nil, ← hvalue hword.signedFirst, h] at herror
    cases herror
  · intro h
    have hnumber := Numeral.writesSigned_write h
    rw [hvalue hnumber.signedFirst]
    exact evalText_number hoperators hnumber

/-- A negative zero, under the narrowest limits. -/
theorem evaluate_write_negative :
    evaluate {} "-(2-2)".toList = .ok (-0.0) ∧
      evaluate ⟨⟨0, 1⟩, 1e-10, 1000, 4⟩ (Numeral.write (-0.0)) = .ok (-0.0) := by
  refine ⟨by decide +kernel, (evaluate_write (by decide) _).2 ?_⟩
  decide +kernel

end Calculator
