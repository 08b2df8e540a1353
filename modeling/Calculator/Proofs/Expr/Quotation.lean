import Calculator.Proofs.Expr.Errors
import Calculator.Proofs.Expr.Grouping
import Calculator.Proofs.Grammar.Unmatched
import Calculator.Proofs.Token.Pieces

/-! What errors quote. Main statement: where no operands are joined, an error quotes a part of the
text that is evaluated, however far inside of fractional exponents it comes up. The quote is empty
only where the text ends too early. -/

namespace Calculator

/-- What the error quotes stands in the source. The only empty quote is that of a number that is
missing at the end. -/
def Error.QuotesFrom (source : Text) (error : Error) : Prop :=
  ∀ quote, error.text? = some quote →
    quote <:+: source ∧ (quote = [] → error = .parse (.malformedNumber []))

namespace Error.QuotesFrom

variable {source piece : Text} {error : Error}

/-- What is quoted from a part of a text is quoted from the text. -/
theorem mono (h : error.QuotesFrom piece) (hin : piece <:+: source) :
    error.QuotesFrom source := fun quote hquote =>
  ⟨(h quote hquote).1.trans hin, (h quote hquote).2⟩

theorem of_isLimit {error : ParseError} (h : error.IsLimit) :
    (Error.parse error).QuotesFrom source := by
  intro quote hquote
  cases error with
  | nestingTooDeep | tooManyOperators => cases hquote
  | _ => cases h

theorem of_text (h : error.text? = some piece) (hin : piece <:+: source) (hne : piece ≠ []) :
    error.QuotesFrom source := by
  intro quote hquote
  rw [h] at hquote
  cases hquote
  exact ⟨hin, fun hnil => absurd hnil hne⟩

theorem of_malformedNumber (h : piece <:+: source) :
    (Error.parse (.malformedNumber piece)).QuotesFrom source := by
  rintro quote ⟨⟩
  exact ⟨h, fun hnil => by rw [hnil]⟩

end Error.QuotesFrom

/-! ### Errors of parsing -/

theorem quotesFrom_of_scan {source : Text} {error : ParseError} (h : scan source = .error error) :
    (Error.parse error).QuotesFrom source := by
  obtain ⟨before, piece, after, hsplit, _, _, rfl⟩ := exists_piece_of_scanFrom h
  refine .of_malformedNumber ⟨before.flatten, after.flatten, ?_⟩
  have hflatten : source.pieces.flatten = source := Text.flatten_runs source
  rw [hsplit] at hflatten
  simpa using hflatten

namespace Grammar

theorem Stage.opening_of_next {stage : Stage} {token : Token}
    (h : stage.next token = some .opened) : token = .opening := by
  cases token with
  | opening => rfl
  | number value => simp at h
  | closing => cases stage <;> cases h
  | operator op => cases stage <;> cases op <;> cases h

/-- Reading stops after an opening parenthesis only where one was read last. -/
theorem opening_of_follow {stage : Stage} {tokens unread : List Lexeme}
    (h : follow stage tokens = (.opened, unread)) :
    stage = .opened ∧ tokens = unread ∨
      ∃ front place, tokens = front ++ ⟨.opening, place⟩ :: unread := by
  induction tokens generalizing stage with
  | nil =>
    cases h
    exact .inl ⟨rfl, rfl⟩
  | cons t tokens ih =>
    cases hnext : stage.next t.token with
    | none =>
      rw [follow_of_stuck hnext] at h
      cases h
      exact .inl ⟨rfl, rfl⟩
    | some next =>
      rw [follow_of_next hnext] at h
      rcases ih h with ⟨rfl, rfl⟩ | ⟨front, place, rfl⟩
      · obtain ⟨token, place⟩ := t
        obtain rfl := Stage.opening_of_next hnext
        exact .inr ⟨[], place, rfl⟩
      · exact .inr ⟨t :: front, place, rfl⟩

theorem Stuck.quotesFrom {source : Text} {tokens : List Lexeme} {error : ParseError}
    (h : Stuck source .operand tokens error) (htiles : Tiles 0 source tokens) :
    (Error.parse error).QuotesFrom source := by
  obtain ⟨last, unread, before, after, hfollow, hsource, -, hreports⟩ := h
  unfold Stage.Reports at hreports
  split at hreports
  · exact hreports.elim
  · -- nothing was read between the two parentheses, so nothing stands between them
    obtain rfl := hreports
    rcases opening_of_follow hfollow with ⟨hstage, _⟩ | ⟨front, place, rfl⟩
    · cases hstage
    · obtain ⟨a, b, rfl, _, hb⟩ := htiles.split
      cases hb with
      | cons hopening hrest =>
        cases hrest with
        | cons hclosing hrest =>
          obtain rfl := hopening
          obtain rfl := hclosing
          exact .of_text rfl ⟨a, _, List.append_assoc ..⟩ (List.cons_ne_nil _ _)
  · obtain ⟨base, rfl, hbase⟩ := hreports
    refine .of_text rfl (hbase.isInfix.trans ?_) (by simp)
    exact hsource ▸ (List.prefix_append before after).isInfix
  · obtain rfl := hreports
    exact .of_malformedNumber (hsource ▸ (List.suffix_append before after).isInfix)

end Grammar

section

variable {limits : Limits} {source : Text} {tokens : List Lexeme} {error : ParseError}

/-- All from a parenthesis without a partner on. -/
theorem quotesFrom_of_unmatched (hscan : scan source = .ok tokens) {span : Span}
    (h : unmatched? [] tokens = some span) :
    (Error.parse (.unmatchedParenthesis (span.textFrom source))).QuotesFrom source := by
  obtain ⟨c, rfl, hc⟩ := exists_isUnmatched h
  obtain ⟨front, hsource, _, hback⟩ := Grammar.exists_text_of_cut hscan hc.1
  refine .of_text rfl ⟨front, [], by simpa using hsource.symm⟩ fun hnil => ?_
  rw [hnil, scanFrom] at hback
  cases hback

theorem quotesFrom_of_parse (hscan : scan source = .ok tokens)
    (h : parse limits source tokens = .error error) : (Error.parse error).QuotesFrom source := by
  cases hunmatched : unmatched? [] tokens with
  | some span =>
    rw [parse, hunmatched] at h
    split at h
    · cases h
      exact .of_isLimit trivial
    · cases h
      exact quotesFrom_of_unmatched hscan hunmatched
  | none =>
    -- limits that are no obstacle lead to the same error, or it is about them
    let wide : Limits :=
      ⟨max limits.nesting tokens.length, max limits.operators (operatorCount tokens)⟩
    have hwithin : limits.Within wide := ⟨Nat.le_max_left .., Nat.le_max_left ..⟩
    have hoperators : operatorCount tokens ≤ wide.operators := Nat.le_max_right ..
    have hnesting : tokens.length ≤ wide.nesting := Nat.le_max_right ..
    have hbalanced : Balanced tokens := unmatched?_eq_none_iff.1 hunmatched
    rcases parse_within hwithin source tokens with heq | ⟨error', herror, hlimit⟩
    · rw [heq] at h
      rcases Grammar.parse_or_stuck hscan hbalanced hoperators hnesting with
        ⟨e, hparse, _⟩ | ⟨error', hparse, hstuck⟩
      · rw [h] at hparse
        cases hparse
      · rw [h] at hparse
        cases hparse
        exact hstuck.quotesFrom (scanFrom_eq_ok_iff.1 hscan).1
    · rw [h] at herror
      cases herror
      exact .of_isLimit hlimit

theorem quotesFrom_of_parseText (h : parseText limits source = .error error) :
    (Error.parse error).QuotesFrom source := by
  rcases Grammar.bind_eq_error.1 h with hscan | ⟨tokens, hscan, hparse⟩
  · exact quotesFrom_of_scan hscan
  · exact quotesFrom_of_parse hscan hparse

end

/-! ### Errors of exponents -/

section

variable {settings : Settings} {source : Text} {error : Error}

theorem Span.Marks.start_lt_stop {span : Span} {piece : Text} (h : span.Marks source piece)
    (hne : piece ≠ []) : span.start < span.stop := by
  obtain ⟨c, piece, rfl⟩ := List.exists_cons_of_ne_nil hne
  have hsize := c.utf8Size_pos
  have hstop := h.2
  rw [Text.byteLength_cons] at hstop
  omega

/-- No expression is written as nothing. -/
theorem Expr.start_lt_stop {e : Expr} (h : ∀ node ∈ e.nodes, node.Placed source) :
    e.span.start < e.span.stop := by
  induction e with
  | literal value span =>
    obtain ⟨run, x, hrun, ⟨hmarks, _⟩ | ⟨sign, hmarks, _⟩⟩ := h _ (self_mem_nodes _)
    · exact hmarks.start_lt_stop hrun.ne_nil
    · exact hmarks.start_lt_stop (List.cons_ne_nil _ _)
  | group inner span ih =>
    obtain ⟨⟨inside, hmarks⟩, _⟩ := h _ (self_mem_nodes _)
    exact hmarks.start_lt_stop (List.cons_ne_nil _ _)
  | negate operand span ih =>
    obtain ⟨⟨rest, hmarks⟩, _⟩ := h _ (self_mem_nodes _)
    exact hmarks.start_lt_stop (List.cons_ne_nil _ _)
  | binary op left right span ihl ihr =>
    simp only [nodes, List.forall_mem_cons, List.forall_mem_append] at h
    obtain ⟨⟨_, rfl, hbetween⟩, hleft, hright⟩ := h
    have hmiddle : left.span.stop < right.span.start := by
      rcases hbetween with hmarks | hmarks
      · exact hmarks.start_lt_stop (List.cons_ne_nil _ _)
      · exact hmarks.start_lt_stop (List.cons_ne_nil _ _)
    exact (ihl hleft).trans (hmiddle.trans (ihr hright))
  | adjacent left right span ihl ihr =>
    simp only [nodes, List.forall_mem_cons, List.forall_mem_append] at h
    obtain ⟨⟨_, rfl, htouch⟩, hleft, hright⟩ := h
    have hl := ihl hleft
    rw [htouch] at hl
    exact hl.trans (ihr hright)

theorem Expr.text_ne_nil {e : Expr} (h : ∀ node ∈ e.nodes, node.Placed source) :
    e.span.text source ≠ [] := by
  obtain ⟨piece, hmarks⟩ := (h e e.self_mem_nodes).exists_marks
  rw [hmarks.text_eq]
  rintro rfl
  exact Nat.ne_of_gt (start_lt_stop h) hmarks.2

/-- An error of an exponent quotes it as it stands in the source. -/
theorem Error.QuotesFrom.exponents {e left right : Expr} {span : Span}
    (h : ∀ node ∈ e.nodes, node.Placed source) (hmem : .binary .pow left right span ∈ e.nodes) :
    Error.Exponents (Error.QuotesFrom source) (right.span.text source) := by
  intro error htext
  have hright := (Expr.mem_nodes_of_binary hmem).2
  refine .of_text (congrArg some htext) (Span.text_infix ..) (Expr.text_ne_nil ?_)
  exact fun node hnode => h node (Expr.mem_nodes_trans hright hnode)

/-- With no operands to join, all that is read are the sides of fractions, which stand in the text
and have none to join either. -/
theorem side_of_mem_reads {e : Expr} {read : Reader}
    (h : parseText settings.toLimits source = .ok e) (hunjoined : e.Unjoined) :
    ∀ text ∈ e.reads settings read source,
      text <:+: source ∧ IsSide settings.toLimits e text := by
  refine Expr.forall_mem_reads (fun base exponent span hmem fraction hsome => ?_)
    fun left right span hmem => absurd hmem (hunjoined left right span)
  obtain ⟨hnumerator, hdenominator⟩ := Fraction.sides_infix hsome
  obtain ⟨hn, hd⟩ := isSide_of_ofExponent? h (Expr.mem_nodes_of_binary hmem).2 hsome
  exact ⟨⟨hnumerator, hn⟩, hdenominator, hd⟩

theorem evalText_quotesFrom
    (hunjoined : ∀ e, parseText settings.toLimits source = .ok e → e.Unjoined)
    (h : evalText settings source = .error error) : error.QuotesFrom source := by
  induction source using reads_induction settings (evalText settings) with
  | ind source ih =>
    rcases evalText_error h with ⟨e, hparse, hvalue⟩ | ⟨error', hparse, rfl⟩
    · have hfails : FailsBy (Error.QuotesFrom source) (fun read => e.eval settings read source)
          fun read => e.reads settings read source :=
        Expr.eval_fails fun _ _ _ => .exponents (places_of_parseText hparse).nodes
      rcases hfails hvalue with ⟨text, hmem, htext⟩ | hkind
      · obtain ⟨hin, side, hside, hsame⟩ := side_of_mem_reads hparse (hunjoined e hparse) text hmem
        refine (ih e hparse e e.self_mem_nodes text hmem (fun e' he' => ?_) htext).mono hin
        rw [hside] at he'
        cases he'
        exact hsame (hunjoined e hparse)
      · exact hkind
    · exact quotesFrom_of_parseText hparse

/-- An error of a text that is no expression, or one without operands side by side, quotes what
stands in the text once blanks and runs of signs are gone. -/
theorem evaluate_quotes {text quote : Text}
    (hunjoined : ∀ e, parseText settings.toLimits text.stripBlanks.normalizeSigns = .ok e →
      e.Unjoined)
    (h : evaluate settings text = .error error) (hquote : error.text? = some quote) :
    quote <:+: text.stripBlanks.normalizeSigns ∧
      (quote = [] → error = .parse (.malformedNumber [])) :=
  evalText_quotesFrom hunjoined h quote hquote

/-- The denominator of a fraction has a fraction in it whose denominator is zero. -/
theorem evaluate_quotes_denominator :
    evaluate {} "2 ^ (- -3 / 2^(1 / 0))".toList =
      .error (.exponent (.zeroDenominator "(1/0)".toList)) ∧
    "(1/0)".toList <:+: "2^(+3/2^(1/0))".toList := by
  have hvalue : evaluate {} "2 ^ (- -3 / 2^(1 / 0))".toList =
      .error (.exponent (.zeroDenominator "(1/0)".toList)) := by
    decide +kernel
  have hparse : parseText {} "2^(+3/2^(1/0))".toList =
      .ok (.join .pow (.literal 2 ⟨0, 1⟩) (.group (.join .div (.literal 3 ⟨3, 5⟩)
        (.join .pow (.literal 2 ⟨6, 7⟩) (.group
          (.join .div (.literal 1 ⟨9, 10⟩) (.literal 0 ⟨11, 12⟩)) ⟨8, 13⟩))) ⟨2, 14⟩)) := by
    decide +kernel
  have hnormal : Text.normalizeSigns (Text.stripBlanks "2 ^ (- -3 / 2^(1 / 0))".toList) =
      "2^(+3/2^(1/0))".toList := by
    decide +kernel
  have hunjoined (e : Expr) (he : parseText (Settings.toLimits {})
      (Text.normalizeSigns (Text.stripBlanks "2 ^ (- -3 / 2^(1 / 0))".toList)) = .ok e) :
      e.Unjoined := by
    rw [hnormal] at he
    cases hparse.symm.trans he
    simp [Expr.join]
  refine ⟨hvalue, ?_⟩
  rw [← hnormal]
  exact (evaluate_quotes hunjoined hvalue rfl).1

end

end Calculator
