import Calculator.Proofs.Expr.Number
import Calculator.Proofs.Token.Pieces

/-! Operands side by side. They are written one after the other, and what is then read is never
more than two numbers. Main statement: it is one number, the difference of two, or malformed, as
the two texts tell. -/

namespace Calculator

open Grammar (bind_eq_ok)

/-! ### What operands are written as -/

namespace Numeral

/-- The word in the text that begins first. -/
def firstWord? : Text → Option Text
  | [] => none
  | c :: text => (words.find? (·.isPrefixOf (c :: text))).or (firstWord? text)

theorem firstWord?_eq_none_iff {text : Text} :
    firstWord? text = none ↔ ∀ word ∈ words, ¬word <:+: text := by
  induction text with
  | nil => simp [firstWord?, words]
  | cons c text ih =>
    rw [firstWord?, Option.or_eq_none_iff, ih, List.find?_eq_none]
    simp only [List.isPrefixOf_iff_prefix, List.infix_cons_iff, not_or]
    exact ⟨fun h word hword => ⟨h.1 word hword, h.2 word hword⟩,
      fun h => ⟨fun word hword => (h word hword).1, fun word hword => (h word hword).2⟩⟩

theorem Spells.firstWord?_eq {word text : Text} (h : Spells word text) :
    firstWord? text = some word := by
  obtain ⟨hword, htext⟩ := h
  simp only [words, List.mem_cons, List.not_mem_nil, or_false] at hword
  rcases htext with rfl | rfl <;> rcases hword with rfl | rfl <;> rfl

end Numeral

theorem isNumeric_toChar (sign : Sign) : isNumeric sign.toChar = false := by
  cases sign <;> rfl

theorem head?_ne_minus {run : Text} (h : ∀ c ∈ run, isNumeric c) : run.head? ≠ some '-' :=
  fun hhead => nomatch h _ (List.mem_of_head? hhead)

theorem filter_isNumeric {run : Text} (h : ∀ c ∈ run, isNumeric c) : run.filter isNumeric = run :=
  List.filter_eq_self.2 h

theorem filter_isNumeric_signed {run : Text} (h : ∀ c ∈ run, isNumeric c) (sign : Sign) :
    List.filter isNumeric (sign.toChar :: run) = run := by
  rw [List.filter_cons_of_neg (by simp [isNumeric_toChar]), filter_isNumeric h]

namespace Token

variable {x : Float} {text run : Text}

/-- A number has a digit and no second point. -/
theorem Writes.numeral (h : (number x).Writes run) :
    (∃ c ∈ run, c.isDigit) ∧ run.count '.' ≤ 1 := by
  rw [← Numeral.isSome_read?_iff h.1, h.2]
  rfl

theorem WritesSigned.exists_writes_filter (h : (number x).WritesSigned text) :
    ∃ y, (number y).Writes (text.filter isNumeric) := by
  obtain ⟨run, y, hrun, ⟨rfl, _⟩ | ⟨sign, rfl, _⟩⟩ := h
  · rw [filter_isNumeric hrun.1]
    exact ⟨y, hrun⟩
  · rw [filter_isNumeric_signed hrun.1]
    exact ⟨y, hrun⟩

theorem WritesSigned.firstWord?_eq (h : (number x).WritesSigned text) :
    Numeral.firstWord? text = none := by
  refine Numeral.firstWord?_eq_none_iff.2 fun word hword hin => ?_
  obtain ⟨c, letters, rfl, hc, hnone⟩ := Numeral.exists_letter_of_mem_words hword
  have hmem : c ∈ text := hin.subset List.mem_cons_self
  obtain ⟨run, y, hrun, ⟨rfl, _⟩ | ⟨sign, rfl, _⟩⟩ := h
  · rw [hrun.1 c hmem] at hc
    cases hc
  · rcases List.mem_cons.1 hmem with rfl | hmem
    · cases sign <;> cases hnone
    · rw [hrun.1 c hmem] at hc
      cases hc

end Token

namespace Expr

variable {settings : Settings} {source : Text} {x : Float} {e left right : Expr} {span : Span}

/-- An operand with the value `x` as text: a literal as it stands there, anything else as its value
is written. -/
def written (source : Text) (x : Float) : Expr → Text
  | literal _ span => span.text source
  | _ => Numeral.write x

theorem operandText_eq (source : Text) (x : Float) (e : Expr) :
    operandText source (.ok x) e = .ok (e.written source x) := by
  cases e <;> rfl

theorem written_or_spells (hplaced : e.Placed source) (h : e.value settings source = .ok x) :
    (Token.number x).WritesSigned (e.written source x) ∨
      ∃ word, Numeral.Spells word (e.written source x) := by
  cases e with
  | literal value span =>
    cases h
    obtain ⟨run, y, hrun, ⟨hmarks, hvalue⟩ | ⟨sign, hmarks, hvalue⟩⟩ := hplaced
    · exact .inl ⟨run, y, hrun, .inl ⟨hmarks.text_eq, hvalue⟩⟩
    · exact .inl ⟨run, y, hrun, .inr ⟨sign, hmarks.text_eq, hvalue⟩⟩
  | _ =>
    rcases Nat.lt_or_ge (Numeral.magnitude x) Numeral.infinity with hlt | hle
    · exact .inl (Numeral.writesSigned_write hlt)
    · exact .inr (Numeral.exists_spells_write hle)

theorem signedFirst_written (hplaced : e.Placed source) (h : e.value settings source = .ok x) :
    (e.written source x).SignedFirst := by
  rcases written_or_spells hplaced h with hnumber | ⟨word, hword⟩
  · exact hnumber.signedFirst
  · exact hword.signedFirst

/-- The second operand has no plus in front. -/
theorem written_run_or_spells {limits : Limits} (h : parseText limits source = .ok e)
    (hmem : adjacent left right span ∈ e.nodes) :
    (∃ run y, (Token.number y).Writes run ∧
      (right.written source x = run ∨ right.written source x = '-' :: run)) ∨
      ∃ word, Numeral.Spells word (right.written source x) := by
  cases right with
  | literal value place =>
    obtain ⟨run, hrun, hmarks⟩ := exists_marks_of_adjacent h hmem
    exact .inl ⟨run, value, hrun, .inl hmarks.text_eq⟩
  | _ =>
    rcases Nat.lt_or_ge (Numeral.magnitude x) Numeral.infinity with hlt | hle
    · obtain ⟨run, y, hrun, ⟨hwrite, _⟩ | ⟨hwrite, _⟩⟩ := Numeral.exists_run_of_write hlt
      · exact .inl ⟨run, y, hrun, .inl hwrite⟩
      · exact .inl ⟨run, y, hrun, .inr hwrite⟩
    · exact .inr (Numeral.exists_spells_write hle)

end Expr

/-! ### What is read of two texts -/

section

variable {settings : Settings} {first run : Text} {x y : Float}

/-- Digits and points are one number, or none. -/
theorem evalText_run {front : Text} {tokens : List Lexeme} (htiles : Tiles 0 front tokens)
    (hapart : Apart tokens) (hlast : ∀ t ∈ tokens.getLast?, t.token.isNumber = false)
    (hrun : ∀ c ∈ run, isNumeric c) (hne : run ≠ []) (hread : Numeral.read? run = none) :
    evalText settings (front ++ run) = .error (.parse (.malformedNumber run)) := by
  refine evalText_of_scanFrom htiles hapart (fun t ht hnumber => ?_) fun start => ?_
  · rw [hlast t ht] at hnumber
    cases hnumber
  · obtain ⟨c, run, rfl⟩ := List.exists_cons_of_ne_nil hne
    obtain ⟨hc, hrest⟩ := List.forall_mem_cons.1 hrun
    have htake := @List.takeWhile_append_of_pos _ isNumeric run [] hrest
    rw [List.takeWhile_nil, List.append_nil] at htake
    rw [scanFrom, if_pos hc]
    simp only [htake, hread]

/-- Digits and points behind a number go on with it. -/
theorem evalText_append_run (hoperators : 1 ≤ settings.operators)
    (hfirst : (Token.number x).WritesSigned first) (hrun : ∀ c ∈ run, isNumeric c) :
    evalText settings (first ++ run) =
      match Numeral.read? (first.filter isNumeric ++ run) with
      | some a => .ok (if first.head? = some '-' then -a else a)
      | none => .error (.parse (.malformedNumber (first.filter isNumeric ++ run))) := by
  obtain ⟨digits, y, hdigits, htext⟩ := hfirst
  have hall : ∀ c ∈ digits ++ run, isNumeric c := List.forall_mem_append.2 ⟨hdigits.1, hrun⟩
  have hne : digits ++ run ≠ [] := List.append_ne_nil_of_left_ne_nil hdigits.ne_nil _
  rcases htext with ⟨rfl, _⟩ | ⟨sign, rfl, _⟩
  · rw [filter_isNumeric hdigits.1]
    simp only [if_neg (head?_ne_minus hdigits.1)]
    cases hread : Numeral.read? (first ++ run) with
    | some a => exact evalText_number hoperators ⟨_, a, ⟨hall, hread⟩, .inl ⟨rfl, rfl⟩⟩
    | none => exact evalText_run .nil .nil (by simp) hall hne hread
  · have hvalue (a : Float) :
        (if (sign.toChar :: digits).head? = some '-' then -a else a) = sign.apply a := by
      cases sign <;> rfl
    rw [filter_isNumeric_signed hdigits.1]
    simp only [hvalue]
    cases hread : Numeral.read? (digits ++ run) with
    | some a => exact evalText_number hoperators ⟨_, a, ⟨hall, hread⟩, .inr ⟨sign, rfl, rfl⟩⟩
    | none =>
      obtain ⟨op, hop, hnumber⟩ := sign.exists_operator
      exact evalText_run (.cons hop .nil) (.singleton _) (by rintro _ ⟨⟩; rfl) hall hne hread

/-- A number behind another one and a minus is taken from it. -/
theorem evalText_difference (hoperators : 2 ≤ settings.operators)
    (hfirst : (Token.number x).WritesSigned first) (hrun : (Token.number y).Writes run) :
    evalText settings (first ++ '-' :: run) = .ok (x - y) := by
  obtain ⟨tokens, span, htiles, hapart, hcount, hphrase⟩ := hfirst.exists_phrase settings.nesting
  have hminus : (Token.operator .sub).Writes ['-'] := rfl
  have hbehind := htiles.append (.cons hminus (hrun.tiles _))
  rw [List.singleton_append] at hbehind
  rw [evalText_of_phrase hbehind ?_ ?_ (.tighter (.join (.tighter (.tighter (.tighter hphrase)))
    (.tighter (.tighter (.unsigned (.unraised (.single .number)))))))]
  · rfl
  · exact hapart.append (List.isChain_pair.2 nofun) (by rintro _ ⟨⟩; rfl)
  · rw [Grammar.operatorCount_append]
    exact Nat.le_trans (Nat.add_le_add_right hcount 1) hoperators

end

/-- What two operands that are written as `first` and `second` come to, side by side. -/
structure JoinsTo (first second : Text) (result : Except Error Float) : Prop where
  /-- A word is shown by its first letter, the word of the first operand rather than another. -/
  word {word : Text} :
    (Numeral.firstWord? first).or (Numeral.firstWord? second) = some word →
    result = .error (.parse (.malformedNumber (word.take 1)))
  /-- Without a word, what has a minus in front is taken from the first operand. -/
  difference {rest : Text} :
    (Numeral.firstWord? first).or (Numeral.firstWord? second) = none → second = '-' :: rest →
    ∃ a b, (Token.number a).WritesSigned first ∧ (Token.number b).Writes rest ∧
      result = .ok (a - b)
  /-- Otherwise the digits and points of both are one number, with the minus of the first, -/
  number :
    (Numeral.firstWord? first).or (Numeral.firstWord? second) = none → second.head? ≠ some '-' →
    (first.filter isNumeric ++ second).count '.' ≤ 1 →
    ∃ a, (Token.number a).Writes (first.filter isNumeric ++ second) ∧
      result = .ok (if first.head? = some '-' then -a else a)
  /-- unless there is a point in each. -/
  points :
    (Numeral.firstWord? first).or (Numeral.firstWord? second) = none → second.head? ≠ some '-' →
    1 < (first.filter isNumeric ++ second).count '.' →
    (first.filter isNumeric ++ second).count '.' = 2 ∧
      result = .error (.parse (.malformedNumber (first.filter isNumeric ++ second)))

theorem JoinsTo.of_word {first second word : Text} {result : Except Error Float}
    (hword : (Numeral.firstWord? first).or (Numeral.firstWord? second) = some word)
    (hresult : result = .error (.parse (.malformedNumber (word.take 1)))) :
    JoinsTo first second result := by
  constructor <;> rw [hword]
  · rintro _ ⟨⟩
    exact hresult
  all_goals exact nofun

section

variable {settings : Settings} {first second : Text} {x y : Float}

/-- A number and a number without a sign. -/
theorem joinsTo_run (hoperators : 2 ≤ settings.operators)
    (hfirst : (Token.number x).WritesSigned first) (hsecond : (Token.number y).Writes second) :
    JoinsTo first second (evalText settings (first ++ second)) := by
  obtain ⟨z, hdigits⟩ := hfirst.exists_writes_filter
  have hall : ∀ c ∈ first.filter isNumeric ++ second, isNumeric c :=
    List.forall_mem_append.2 ⟨hdigits.1, hsecond.1⟩
  have hcount : (first.filter isNumeric ++ second).count '.' =
      (first.filter isNumeric).count '.' + second.count '.' := List.count_append
  obtain ⟨⟨c, hc, hdigit⟩, hpoint⟩ := hsecond.numeral
  have hread := Numeral.isSome_read?_iff hall
  rw [evalText_append_run (Nat.le_of_succ_le hoperators) hfirst hsecond.1]
  constructor
  · rw [hfirst.firstWord?_eq, hsecond.signed.firstWord?_eq]
    exact nofun
  · rintro rest _ rfl
    exact absurd rfl (head?_ne_minus hsecond.1)
  · intro _ _ hle
    obtain ⟨a, ha⟩ := Option.isSome_iff_exists.1
      (hread.2 ⟨⟨c, List.mem_append_right _ hc, hdigit⟩, hle⟩)
    rw [ha]
    exact ⟨a, ⟨hall, ha⟩, rfl⟩
  · intro _ _ hlt
    have hnone : Numeral.read? (first.filter isNumeric ++ second) = none := by
      rw [← Option.not_isSome_iff_eq_none, hread]
      omega
    have := hdigits.numeral.2
    rw [hnone]
    exact ⟨by omega, rfl⟩

/-- A number and a number with a minus. -/
theorem joinsTo_minus {run : Text} (hoperators : 2 ≤ settings.operators)
    (hfirst : (Token.number x).WritesSigned first) (hrun : (Token.number y).Writes run) :
    JoinsTo first ('-' :: run) (evalText settings (first ++ '-' :: run)) := by
  have hsecond : (Token.number (-y)).WritesSigned ('-' :: run) :=
    ⟨run, y, hrun, .inr ⟨.minus, rfl, rfl⟩⟩
  rw [evalText_difference hoperators hfirst hrun]
  constructor
  · rw [hfirst.firstWord?_eq, hsecond.firstWord?_eq]
    exact nofun
  · rintro rest _ ⟨⟩
    exact ⟨x, y, hfirst, hrun, rfl⟩
  · exact fun _ hne => absurd rfl hne
  · exact fun _ hne => absurd rfl hne

/-- A word and whatever comes behind it. -/
theorem joinsTo_of_spells_left {word : Text} (hfirst : Numeral.Spells word first) :
    JoinsTo first second (evalText settings (first ++ second)) := by
  refine .of_word ?_ (@evalText_of_spells settings _ [] second word [] .nil .nil hfirst)
  rw [hfirst.firstWord?_eq]
  rfl

/-- A number and a word. -/
theorem joinsTo_of_spells_right {word : Text} (hfirst : (Token.number x).WritesSigned first)
    (hsecond : Numeral.Spells word second) :
    JoinsTo first second (evalText settings (first ++ second)) := by
  obtain ⟨tokens, span, htiles, hapart, _⟩ := hfirst.exists_phrase 0
  have herror := @evalText_of_spells settings _ _ [] _ _ htiles hapart hsecond
  rw [List.append_nil] at herror
  refine .of_word ?_ herror
  rw [hfirst.firstWord?_eq, hsecond.firstWord?_eq]
  rfl

end

/-- Two operands side by side that have values come to what their texts join to, and to no other
error. -/
theorem value_adjacent {limits : Limits} {settings : Settings} {source : Text}
    {e left right : Expr} {span : Span} {x y : Float} (h : parseText limits source = .ok e)
    (hmem : .adjacent left right span ∈ e.nodes) (hoperators : 2 ≤ settings.operators)
    (hleft : left.value settings source = .ok x) (hright : right.value settings source = .ok y) :
    JoinsTo (left.written source x) (right.written source y)
      ((Expr.adjacent left right span).value settings source) := by
  have hplaced := (places_of_parseText h).nodes
  obtain ⟨hmemLeft, hmemRight⟩ := Expr.mem_nodes_of_adjacent hmem
  have hapart := (Expr.signedFirst_written (hplaced _ hmemLeft) hleft).signsApart_append
    (Expr.signedFirst_written (hplaced _ hmemRight) hright)
  have hfirst := Expr.written_or_spells (hplaced _ hmemLeft) hleft
  have hsecond := Expr.written_run_or_spells h hmem (x := y)
  have hvalue : (Expr.adjacent left right span).value settings source =
      evalText settings (left.written source x ++ right.written source y) := by
    rw [Expr.value] at hleft hright ⊢
    rw [Expr.eval, hleft, hright, Expr.operandText_eq, Expr.operandText_eq]
    exact congrArg (evalText settings) (Text.normalizeSigns_eq_self hapart)
  rw [hvalue]
  rcases hfirst with hfirst | ⟨word, hfirst⟩
  · rcases hsecond with ⟨run, b, hrun, hsecond | hsecond⟩ | ⟨word, hsecond⟩
    · rw [hsecond]
      exact joinsTo_run hoperators hfirst hrun
    · rw [hsecond]
      exact joinsTo_minus hoperators hfirst hrun
    · exact joinsTo_of_spells_right hfirst hsecond
  · exact joinsTo_of_spells_left hfirst

/-- A signed number beside a difference below zero. -/
theorem value_adjacent_signs : ∃ e, parseText {} "-1.5(2-5)".toList = .ok e ∧
    JoinsTo "-1.5".toList "-3".toList (e.value {} "-1.5(2-5)".toList) ∧
    e.value {} "-1.5(2-5)".toList = .ok (-4.5) := by
  have hparse : parseText {} "-1.5(2-5)".toList =
      .ok (.beside (.literal (-1.5) ⟨0, 4⟩)
        (.group (.join .sub (.literal 2 ⟨5, 6⟩) (.literal 5 ⟨7, 8⟩)) ⟨4, 9⟩)) := by
    decide +kernel
  have hfirst : (Expr.literal (-1.5) ⟨0, 4⟩).written "-1.5(2-5)".toList (-1.5) =
      "-1.5".toList := by
    decide +kernel
  have hsecond : Numeral.write (-3) = "-3".toList := by decide +kernel
  refine ⟨_, hparse, ?_, by decide +kernel⟩
  rw [← hfirst, ← hsecond]
  exact value_adjacent hparse (Expr.self_mem_nodes _) (by decide) rfl (by decide +kernel)

end Calculator
