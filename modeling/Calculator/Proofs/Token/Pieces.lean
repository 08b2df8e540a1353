import Calculator.Proofs.Text.Runs
import Calculator.Proofs.Token.Tiling

/-! The pieces of a text: every run of digits and points, as long as it can be, and every other
character on its own. Main statement: a text is cut into tokens exactly if each of its pieces is a
number or a symbol. The tokens are then those of the pieces, laid end to end; otherwise the error
shows the first piece that is neither. -/

namespace Calculator

namespace Text

/-- The runs of digits and points, and every other character on its own. -/
abbrev pieces (text : Text) : List Text := text.runs isNumeric

/-- Digits, at least one, and at most one point. -/
def IsNumeral (piece : Text) : Prop :=
  (∀ c ∈ piece, isNumeric c) ∧ (∃ c ∈ piece, c.isDigit) ∧ piece.count '.' ≤ 1

/-- A character that means something on its own. -/
def IsSymbol (piece : Text) : Prop :=
  ∃ c ∈ ['+', '-', '*', '/', '^', '(', ')'], piece = [c]

instance : DecidablePred IsNumeral := fun piece =>
  @instDecidableAnd _ _ (List.decidableBAll _ piece)
    (@instDecidableAnd _ _ (List.decidableBEx _ piece) (Nat.decLe _ _))

instance : DecidablePred IsSymbol := fun _ => List.decidableBEx _ _

/-- What can be one token. -/
def IsWord (piece : Text) : Prop := piece.IsNumeral ∨ piece.IsSymbol

instance : DecidablePred IsWord := fun _ => inferInstanceAs (Decidable (_ ∨ _))

end Text

/-! ### Which pieces are tokens -/

theorem Numeral.isSome_ofDigits?_iff {whole fraction : Text} :
    (ofDigits? whole fraction).isSome ↔ whole ≠ [] ∨ fraction ≠ [] := by
  unfold ofDigits?
  cases whole <;> cases fraction <;> simp

/-- A run of digits and points is a number if it has a digit and no second point. -/
theorem Numeral.isSome_read?_iff {run : Text} (hrun : ∀ c ∈ run, isNumeric c) :
    (read? run).isSome ↔ (∃ c ∈ run, c.isDigit) ∧ run.count '.' ≤ 1 := by
  have hsplit : run.takeWhile Char.isDigit ++ run.dropWhile Char.isDigit = run :=
    List.takeWhile_append_dropWhile
  have hwhole : ∀ c ∈ run.takeWhile Char.isDigit, c.isDigit := fun c hc =>
    List.all_eq_true.1 List.all_takeWhile c hc
  have hpoints {digits : Text} (h : ∀ c ∈ digits, c.isDigit) : digits.count '.' = 0 :=
    List.count_eq_zero.2 fun hmem => nomatch h _ hmem
  unfold read?
  generalize run.takeWhile Char.isDigit = whole at hsplit hwhole ⊢
  split
  · next hrest =>
    rw [hrest, List.append_nil] at hsplit
    subst hsplit
    rw [isSome_ofDigits?_iff, hpoints hwhole]
    cases whole with
    | nil => simp
    | cons c whole => simp [hwhole c]
  · next fraction hrest =>
    rw [hrest] at hsplit
    subst hsplit
    have hcount : (whole ++ '.' :: fraction).count '.' = fraction.count '.' + 1 := by
      rw [List.count_append, hpoints hwhole, List.count_cons_self, Nat.zero_add]
    rw [hcount]
    split
    · next hfraction =>
      have hfraction := List.all_eq_true.1 hfraction
      rw [isSome_ofDigits?_iff, hpoints hfraction]
      cases whole with
      | nil =>
        cases fraction with
        | nil => simp
        | cons c fraction => simp [hfraction c]
      | cons c whole => simp [hwhole c]
    · next hfraction =>
      simp only [List.all_eq_true, not_forall] at hfraction
      obtain ⟨c, hc, hdigit⟩ := hfraction
      have hnumeric := hrun c (by simp [hc])
      simp only [isNumeric, hdigit, Bool.false_or, beq_iff_eq] at hnumeric
      subst hnumeric
      have := List.count_pos_iff.2 hc
      simp
      omega
  · next hnil hpoint =>
    -- the first character that is no digit can only be a point
    cases hrest : run.dropWhile Char.isDigit with
    | nil => exact absurd hrest hnil
    | cons c rest =>
      have hdigit : c.isDigit = false :=
        Text.head?_dropWhile Char.isDigit run c (by rw [hrest]; rfl)
      have hnumeric := hrun c (by rw [← hsplit, hrest]; simp)
      simp only [isNumeric, hdigit, Bool.false_or, beq_iff_eq] at hnumeric
      subst hnumeric
      exact absurd hrest (hpoint rest)

theorem Text.isSymbol_iff {c : Char} : IsSymbol [c] ↔ (Token.ofChar? c).isSome := by
  constructor
  · rintro ⟨d, hd, heq⟩
    obtain rfl := List.singleton_inj.1 heq
    revert hd
    simp only [List.mem_cons, List.not_mem_nil, or_false]
    rintro (rfl | rfl | rfl | rfl | rfl | rfl | rfl) <;> rfl
  · intro h
    refine ⟨c, ?_, rfl⟩
    obtain ⟨token, htoken⟩ := Option.isSome_iff_exists.1 h
    unfold Token.ofChar? at htoken
    split at htoken
    · simp
    · simp
    · obtain ⟨op, hop, _⟩ := Option.map_eq_some_iff.1 htoken
      obtain rfl := BinaryOp.ofChar?_eq_some_iff.1 hop
      cases op <;> simp [BinaryOp.toChar]

theorem Token.Writes.isWord {token : Token} {piece : Text} (h : token.Writes piece) :
    piece.IsWord := by
  cases hnumber : token.isNumber with
  | false =>
    obtain ⟨c, rfl, _, htoken, _⟩ := h.single hnumber
    exact .inr (Text.isSymbol_iff.2 (by simp [htoken]))
  | true =>
    cases token with
    | number value =>
      obtain ⟨hrun, hread⟩ := h
      exact .inl ⟨hrun, (Numeral.isSome_read?_iff hrun).1 (by simp [hread])⟩
    | _ => cases hnumber

/-! ### Pieces and tokens -/

/-- The spans lie end to end. -/
def Contiguous : (start stop : Nat) → List Lexeme → Prop
  | start, stop, [] => start = stop
  | start, stop, t :: tokens => t.span.start = start ∧ Contiguous t.span.stop stop tokens

namespace Tiles

variable {start : Nat} {text : Text} {tokens : List Lexeme}

theorem contiguous (h : Tiles start text tokens) :
    Contiguous start (start + text.byteLength) tokens := by
  induction h with
  | nil => rfl
  | cons _ _ ih =>
    rw [Text.byteLength_append, ← Nat.add_assoc]
    exact ⟨rfl, ih⟩

/-- Where no number stands after a number, the tiles are the pieces. -/
theorem forall₂_pieces (h : Tiles start text tokens) (hapart : Apart tokens)
    (front : Text) (hstart : start = front.byteLength) :
    List.Forall₂ (fun piece t => t.token.Writes piece ∧ t.span.text (front ++ text) = piece)
      text.pieces tokens := by
  induction h generalizing front with
  | nil => exact .nil
  | @cons start token piece text tokens hpiece hrest ih =>
    subst hstart
    obtain ⟨hnext, htail⟩ := List.isChain_cons.1 hapart
    have hpieces : (piece ++ text).pieces = piece :: text.pieces := by
      cases hnumber : token.isNumber with
      | false =>
        obtain ⟨c, rfl, hc, _⟩ := hpiece.single hnumber
        exact Text.runs_cons hc text
      | true =>
        have hrun : ∀ c ∈ piece, isNumeric c := by
          cases token with
          | number value => exact hpiece.1
          | _ => cases hnumber
        refine Text.runs_run hpiece.ne_nil hrun fun c hc => ?_
        cases tokens with
        | nil =>
          cases hrest
          cases hc
        | cons t tokens =>
          obtain ⟨d, rest, rfl, hd⟩ := hrest.exists_head
          cases hc
          rw [hd]
          exact hnext t rfl hnumber
    have hrest := ih htail (front ++ piece) (Text.byteLength_append ..).symm
    rw [List.append_assoc] at hrest
    rw [hpieces, ← List.append_assoc]
    exact .cons ⟨hpiece, Span.text_append front piece text⟩ (by rwa [List.append_assoc])

end Tiles

/-- An error of the scan shows the first piece that is no token. -/
theorem exists_piece_of_scanFrom {start : Nat} {text : Text} {error : ParseError}
    (h : scanFrom start text = .error error) :
    ∃ before piece after, text.pieces = before ++ piece :: after ∧
      (∀ word ∈ before, word.IsWord) ∧ ¬piece.IsWord ∧ error = .malformedNumber piece := by
  fun_induction scanFrom start text with
  | case1 => cases h
  | case2 start c text hc run hread =>
    cases h
    have hall : ∀ d ∈ run, isNumeric d := Text.forall_mem_takeWhile hc text
    refine ⟨[], run, _, Text.runs_first hc text, by simp, ?_, rfl⟩
    rintro (⟨_, hnumeral⟩ | ⟨d, hd, heq⟩)
    · have := (Numeral.isSome_read?_iff hall).2 hnumeral
      rw [hread] at this
      cases this
    · simp only [run, List.cons.injEq] at heq
      obtain ⟨rfl, _⟩ := heq
      revert hc hd
      simp only [List.mem_cons, List.not_mem_nil, or_false]
      rintro hc (rfl | rfl | rfl | rfl | rfl | rfl | rfl) <;> cases hc
  | case3 start c text hc run value hread stop =>
    rename_i ih
    have hall : ∀ d ∈ run, isNumeric d := Text.forall_mem_takeWhile hc text
    have hpieces : Text.pieces (c :: text) = run :: Text.pieces (text.dropWhile isNumeric) :=
      Text.runs_first hc text
    rcases Grammar.bind_eq_error.1 h with h | ⟨rest, _, h⟩
    · obtain ⟨before, piece, after, hsplit, hbefore, hpiece, herror⟩ := ih h
      refine ⟨run :: before, piece, after, by rw [hpieces, hsplit]; rfl, ?_, hpiece, herror⟩
      have hword : (Token.number value).Writes run := ⟨hall, hread⟩
      exact List.forall_mem_cons.2 ⟨hword.isWord, hbefore⟩
    · cases h
  | case4 start c text hc hnone =>
    cases h
    refine ⟨[], [c], _, Text.runs_cons (by simpa using hc) text, by simp, ?_, rfl⟩
    rintro (⟨hall, _⟩ | hsymbol)
    · exact hc (hall c (by simp))
    · rw [Text.isSymbol_iff, hnone] at hsymbol
      cases hsymbol
  | case5 start c text hc token htoken ih =>
    rcases Grammar.bind_eq_error.1 h with h | ⟨rest, _, h⟩
    · obtain ⟨before, piece, after, hsplit, hbefore, hpiece, herror⟩ := ih h
      have hpieces : Text.pieces (c :: text) = [c] :: Text.pieces text :=
        Text.runs_cons (by simpa using hc) text
      refine ⟨[c] :: before, piece, after, by rw [hpieces, hsplit]; rfl, ?_, hpiece, herror⟩
      exact List.forall_mem_cons.2 ⟨(Token.writes_of_ofChar? htoken).1.isWord, hbefore⟩
    · cases h

theorem isWord_of_scan {text : Text} {tokens : List Lexeme} (h : scan text = .ok tokens) :
    ∀ piece ∈ text.pieces, piece.IsWord := by
  obtain ⟨htiles, hapart⟩ := scanFrom_eq_ok_iff.1 h
  have hpieces := htiles.forall₂_pieces hapart [] rfl
  have hwords : List.Forall₂ (fun piece _ => piece.IsWord ∧ True) text.pieces tokens :=
    hpieces.imp fun _ _ h => ⟨h.1.isWord, trivial⟩
  exact ((List.forall₂_and_left _ _).1 hwords).1

/-- A text of numbers and symbols is cut into their tokens, each at its place, with none of the
text left over. Otherwise the first piece that is neither is reported as a whole. -/
theorem scan_pieces (text : Text) :
    text.pieces.flatten = text ∧
    ((∀ piece ∈ text.pieces, piece.IsWord) →
      ∃ tokens, scan text = .ok tokens ∧
        List.Forall₂ (fun piece t => t.token.Writes piece ∧ t.span.text text = piece)
          text.pieces tokens ∧
        Contiguous 0 text.byteLength tokens ∧
        (tokens.map fun t => t.span.text text).flatten = text ∧ Apart tokens) ∧
    ∀ before piece after, text.pieces = before ++ piece :: after →
      (∀ word ∈ before, word.IsWord) → ¬piece.IsWord →
        scan text = .error (.malformedNumber piece) := by
  refine ⟨Text.flatten_runs text, ?_, ?_⟩
  · intro hwords
    cases hscan : scan text with
    | error error =>
      obtain ⟨before, piece, after, hsplit, _, hpiece, _⟩ := exists_piece_of_scanFrom hscan
      exact absurd (hwords piece (by simp [hsplit])) hpiece
    | ok tokens =>
      obtain ⟨htiles, hapart⟩ := scanFrom_eq_ok_iff.1 hscan
      have hpieces := htiles.forall₂_pieces hapart [] rfl
      have hcontiguous := htiles.contiguous
      rw [Nat.zero_add] at hcontiguous
      have htexts : text.pieces = tokens.map fun t => t.span.text text := by
        rw [← List.forall₂_eq_eq_eq, List.forall₂_map_right_iff]
        exact hpieces.imp fun _ _ h => h.2.symm
      refine ⟨tokens, rfl, hpieces, hcontiguous, ?_, hapart⟩
      rw [← htexts, Text.flatten_runs]
  · intro before piece after hsplit hbefore hpiece
    have hfirst {before piece after} (hsplit : text.pieces = before ++ piece :: after)
        (hbefore : ∀ word ∈ before, word.IsWord) (hpiece : ¬piece.IsWord) :
        text.pieces.find? (fun piece => ¬piece.IsWord) = some piece :=
      List.find?_eq_some_iff_append.2 ⟨by simpa using hpiece, before, after, hsplit,
        by simpa using hbefore⟩
    cases hscan : scan text with
    | error error =>
      obtain ⟨_, _, _, hsplit', hbefore', hpiece', rfl⟩ := exists_piece_of_scanFrom hscan
      have hsame := (hfirst hsplit' hbefore' hpiece').symm.trans (hfirst hsplit hbefore hpiece)
      rw [Option.some.inj hsame]
    | ok tokens => exact absurd (isWord_of_scan hscan piece (by simp [hsplit])) hpiece

/-- Numbers that begin or end in a point, and a run with a second one before a character that means
nothing. -/
theorem scan_pieces_points :
    (∃ tokens, scan "2.*-(.5)".toList = .ok tokens ∧ Contiguous 0 8 tokens) ∧
      scan "7+1.2.3é".toList = .error (.malformedNumber "1.2.3".toList) := by
  constructor
  · obtain ⟨tokens, hscan, _, hcontiguous, _⟩ := (scan_pieces "2.*-(.5)".toList).2.1 (by decide)
    exact ⟨tokens, hscan, hcontiguous⟩
  · exact (scan_pieces "7+1.2.3é".toList).2.2 [['7'], ['+']] "1.2.3".toList [['é']] (by decide)
      (by decide) (by decide)

end Calculator
