import Calculator.Expr.Fraction
import Calculator.Proofs.Expr.Placement

/-! Opening parentheses, counted in a text and in the pieces that evaluation takes from it. Main
statements: the sides of a fraction have fewer than the text, and operands side by side are only
in a text that has one. -/

namespace Calculator

open Grammar (bind_eq_ok)

/-! ### Parentheses in pieces of a text -/

namespace Text

theorem eq_append_of_dropBytes {n : Nat} {text rest : Text} (h : text.dropBytes n = some rest) :
    ∃ front, text = front ++ rest := by
  fun_induction dropBytes n text with
  | case1 => exact ⟨[], Option.some.inj h⟩
  | case2 => cases h
  | case3 n c text hc ih =>
    obtain ⟨front, rfl⟩ := ih h
    exact ⟨c :: front, rfl⟩
  | case4 => cases h

theorem eq_append_of_takeBytes {n : Nat} {text front : Text} (h : text.takeBytes n = some front) :
    ∃ rest, text = front ++ rest := by
  fun_induction takeBytes n text generalizing front with
  | case1 => cases h; exact ⟨_, rfl⟩
  | case2 => cases h
  | case3 n c text hc ih =>
    obtain ⟨front', hfront, rfl⟩ := Option.map_eq_some_iff.1 h
    obtain ⟨rest, rfl⟩ := ih hfront
    exact ⟨rest, rfl⟩
  | case4 => cases h

/-- Joining signs leaves all other characters as they are. -/
theorem count_joinSigns {c : Char} (hc : Sign.ofChar? c = none) (text : Text) :
    (joinSigns text).count c = text.count c := by
  have hne {d : Char} {sign : Sign} (hd : Sign.ofChar? d = some sign) : (d == c) = false := by
    rw [beq_eq_false_iff_ne]
    rintro rfl
    rw [hc] at hd
    cases hd
  fun_induction joinSigns text with
  | case1 a b text s t ha hb ih =>
    simp [List.count_cons, hne ha, hne hb, hne (Sign.ofChar?_toChar _), ih]
  | case2 a b text _ ih => rw [List.count_cons, List.count_cons, ih]
  | case3 => rfl

theorem count_normalizeSigns {c : Char} (hc : Sign.ofChar? c = none) (text : Text) :
    (normalizeSigns text).count c = text.count c := by
  fun_induction normalizeSigns text with
  | case1 text _ ih => rw [ih, count_joinSigns hc]
  | case2 text => exact count_joinSigns hc text

end Text

/-- What stands at a span is a part of the text, or nothing. -/
theorem Span.text_infix (span : Span) (source : Text) : span.text source <:+: source := by
  unfold Span.text Text.slice?
  by_cases hle : span.start ≤ span.stop
  · rw [if_pos hle]
    cases hdrop : source.dropBytes span.start with
    | none => exact List.nil_infix
    | some rest =>
      obtain ⟨before, rfl⟩ := Text.eq_append_of_dropBytes hdrop
      rw [Option.bind_some]
      cases htake : rest.takeBytes (span.stop - span.start) with
      | none => exact List.nil_infix
      | some piece =>
        obtain ⟨after, rfl⟩ := Text.eq_append_of_takeBytes htake
        exact ⟨before, after, List.append_assoc ..⟩
  · rw [if_neg hle]
    exact List.nil_infix

/-- The text holds a fraction in parentheses, with a slash between its sides. -/
theorem Fraction.infix_of_ofGroup? {negated : Bool} {span : Span} {source : Text}
    {fraction : Fraction} (h : ofGroup? negated span source = some fraction) :
    '(' :: (fraction.numerator ++ '/' :: fraction.denominator ++ [')']) <:+: source := by
  obtain ⟨inside, hinside, h⟩ := Option.bind_eq_some_iff.1 h
  obtain ⟨⟨numerator, denominator⟩, hsplit, h⟩ := Option.bind_eq_some_iff.1 h
  cases h
  unfold inside? at hinside
  split at hinside
  · next text htext =>
    split at hinside
    · next hlast =>
      cases hinside
      have hgroup := span.text_infix source
      rwa [htext, ← List.dropLast_append_getLast? _ hlast, ← splitSlash?_append hsplit] at hgroup
    · cases hinside
  · cases hinside

theorem Fraction.infix_of_ofExponent? {source : Text} {exponent : Expr} {fraction : Fraction}
    (h : ofExponent? source exponent = some fraction) :
    '(' :: (fraction.numerator ++ '/' :: fraction.denominator ++ [')']) <:+: source := by
  unfold ofExponent? at h
  split at h
  · exact infix_of_ofGroup? h
  · exact infix_of_ofGroup? h
  · cases h

/-- The parenthesis around a fraction is in neither of its sides. -/
theorem Fraction.count_lt_of_ofExponent? {source : Text} {exponent : Expr} {fraction : Fraction}
    (h : ofExponent? source exponent = some fraction) :
    fraction.numerator.count '(' + fraction.denominator.count '(' < source.count '(' := by
  have hcount := (infix_of_ofExponent? h).sublist.count_le '('
  simp only [List.count_cons_self, List.count_append, List.count_cons] at hcount
  omega

/-- Both sides of a fraction stand in the text. -/
theorem Fraction.sides_infix {source : Text} {exponent : Expr} {fraction : Fraction}
    (h : ofExponent? source exponent = some fraction) :
    fraction.numerator <:+: source ∧ fraction.denominator <:+: source := by
  have hin := infix_of_ofExponent? h
  constructor
  · refine List.IsInfix.trans ⟨['('], '/' :: fraction.denominator ++ [')'], ?_⟩ hin
    simp
  · refine List.IsInfix.trans ⟨'(' :: fraction.numerator ++ ['/'], [')'], ?_⟩ hin
    simp

theorem count_opening_of_isNumeric {text : Text} (h : ∀ c ∈ text, isNumeric c) :
    text.count '(' = 0 := List.count_eq_zero.2 fun hmem => nomatch h _ hmem

theorem Token.Writes.count_opening {token : Token} {piece : Text} (h : token.Writes piece) :
    piece.count '(' = if token = .opening then 1 else 0 := by
  cases token with
  | number value => exact count_opening_of_isNumeric h.1
  | operator op =>
    obtain rfl := h
    cases op <;> rfl
  | opening =>
    obtain rfl := h
    rfl
  | closing =>
    obtain rfl := h
    rfl

theorem Tiles.count_opening {start : Nat} {text : Text} {tokens : List Lexeme}
    (h : Tiles start text tokens) : text.count '(' = openings tokens := by
  induction h with
  | nil => rfl
  | cons hpiece _ ih =>
    rw [List.count_append, hpiece.count_opening, ih, openings_cons, Nat.add_comm]

/-- The characters that a number is written with: digits and a point, a sign, and the letters of
what is not finite. -/
def isWritten (c : Char) : Bool := isNumeric c || (Sign.ofChar? c).isSome || c.isAlpha

theorem isWritten_of_isNumeric {c : Char} (h : isNumeric c) : isWritten c := by
  simp [isWritten, h]

namespace Numeral

theorem Decimal.isNumeric_of_mem_text {d : Decimal} {c : Char} (h : c ∈ d.text) : isNumeric c := by
  unfold Decimal.text at h
  extract_lets places digits padded whole fraction at h
  have hdigits : ∀ c ∈ padded, isNumeric c := by
    simp only [padded, digits, List.mem_append, List.mem_replicate]
    rintro c (⟨_, rfl⟩ | hc | ⟨_, rfl⟩)
    · rfl
    · simp [isNumeric, Nat.isDigit_of_mem_toDigits (by decide) (by decide) hc]
    · rfl
  have hfraction : ∀ c ∈ fraction, isNumeric c := by
    intro c hc
    have hmem := List.mem_reverse.1 ((List.dropWhile_sublist _).subset (List.mem_reverse.1 hc))
    exact hdigits c (List.mem_of_mem_drop hmem)
  split at h
  · exact hdigits c (List.mem_of_mem_take h)
  · rcases List.mem_append.1 h with h | h
    · exact hdigits c (List.mem_of_mem_take h)
    · rcases List.mem_cons.1 h with rfl | h
      · rfl
      · exact hfraction c h

theorem isWritten_of_mem_write (x : Float) : ∀ c ∈ write x, isWritten c := by
  have hsize (text : Text) (h : ∀ c ∈ text, isWritten c) :
      ∀ c ∈ if isNegative x then '-' :: text else text, isWritten c := by
    split
    · exact List.forall_mem_cons.2 ⟨rfl, h⟩
    · exact h
  unfold write
  split
  · exact List.all_eq_true.1 rfl
  · refine hsize _ ?_
    split
    · exact List.all_eq_true.1 rfl
    · exact fun c hc => isWritten_of_isNumeric (Decimal.isNumeric_of_mem_text hc)

end Numeral

/-! ### Operands side by side -/

theorem Grammar.nodes_signed (place : Span) (operand : Expr) (sign : Sign) (node : Expr) :
    node ∈ (signed place operand sign).nodes →
      node ∈ operand.nodes ∨ node = .negate operand (place.cover operand.span) := by
  cases sign with
  | plus => exact .inl
  | minus => exact fun h => (List.mem_cons.1 h).symm

/-- Of two neighbours the one is a group, since no number stands right after a number. -/
theorem Grammar.Phrase.opening_of_beside {room : Nat} {before after : List Lexeme}
    {left right : Expr} (hl : Phrase room .chain before left)
    (hr : Phrase room .primary after right) (hapart : Apart (before ++ after)) : 0 < openings (before ++ after) := by
  rw [openings_append]
  obtain ⟨t, after, rfl⟩ := List.exists_cons_of_ne_nil hr.ne_nil
  obtain ⟨before, u, rfl⟩ := (List.eq_nil_or_concat' before).resolve_left hl.ne_nil
  have hends := hl.endsOperand
  have hbegins := hr.head_beginsOperand (.inl rfl) t rfl
  have hnext := (List.isChain_append.1 hapart).2.2 u (by simp) t rfl
  have hin := hl.balanced.in_all
  obtain ⟨token, span⟩ := t
  obtain ⟨last, place⟩ := u
  rw [endsOperand_append (by simp)] at hends
  cases last with
  | operator | opening => cases hends
  | closing =>
    simp only [openings_append, closings_append, closings_cons, if_true] at hin ⊢
    omega
  | number value =>
    cases token with
    | operator | closing => cases hbegins
    | number => cases hnext rfl
    | opening =>
      simp only [openings_cons, if_true]
      omega

theorem Grammar.Phrase.opening_of_adjacent {room : Nat} {form : Form} {tokens : List Lexeme}
    {e left right : Expr} {span : Span} (h : Phrase room form tokens e) (hapart : Apart tokens)
    (hmem : .adjacent left right span ∈ e.nodes) : 0 < openings tokens := by
  induction h with
  | number => simp [Expr.nodes] at hmem
  | group _ _ =>
    simp only [openings_cons, if_true]
    omega
  | single _ ih | unraised _ ih | unsigned _ ih | tighter _ ih => exact ih hapart hmem
  | beside hl hr ihl ihr =>
    obtain ⟨hleft, hright⟩ := hapart.of_append
    rcases List.mem_cons.1 hmem with heq | hmem
    · exact hl.opening_of_beside hr hapart
    · rw [openings_append]
      rcases List.mem_append.1 hmem with hmem | hmem
      · have := ihl hleft hmem
        omega
      · have := ihr hright hmem
        omega
  | raised _ _ ihl ihr | join _ _ ihl ihr =>
    obtain ⟨hleft, hright⟩ := hapart.of_append
    rcases List.mem_cons.1 hmem with heq | hmem
    · cases heq
    · simp only [openings_append, openings_cons]
      rcases List.mem_append.1 hmem with hmem | hmem
      · have := ihl hleft hmem
        omega
      · have := ihr hright.tail hmem
        omega
  | fused ht _ ih =>
    obtain ⟨hnext, htail⟩ := List.isChain_cons.1 hapart.tail
    have := ih (apart_cons htail hnext) hmem
    simp only [openings_cons] at this ⊢
    simp at this ⊢
    omega
  | signed _ _ _ ih =>
    rw [openings_cons]
    rcases nodes_signed _ _ _ _ hmem with hmem | heq
    · have := ih hapart.tail hmem
      omega
    · cases heq

theorem opening_of_adjacent {limits : Limits} {source : Text} {e left right : Expr} {span : Span}
    (h : parseText limits source = .ok e) (hmem : .adjacent left right span ∈ e.nodes) :
    0 < source.count '(' := by
  obtain ⟨tokens, hscan, hparse⟩ := bind_eq_ok.1 h
  obtain ⟨htiles, hapart⟩ := scanFrom_eq_ok_iff.1 hscan
  rw [htiles.count_opening]
  exact (Grammar.phrase_of_parse hparse).opening_of_adjacent hapart hmem

end Calculator
