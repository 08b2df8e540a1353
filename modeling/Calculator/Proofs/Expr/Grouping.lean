import Calculator.Proofs.Expr.Enclosure
import Calculator.Proofs.Expr.Limits

/-! Parentheses are transparent. Main statements: a group has the value of the text between its
parentheses, wherever it stands; and putting a whole text in parentheses changes nothing, if one
more level of nesting is allowed. -/

namespace Calculator

open Grammar (bind_eq_ok)

/-! ### The same text at another place -/

/-- What stands in a text stands further on in a longer one. -/
theorem Span.Marks.forward {span : Span} {source piece : Text} (h : span.Marks source piece)
    (front back : Text) :
    (span.forward front.byteLength).Marks (front ++ (source ++ back)) piece := by
  obtain ⟨⟨before, after, rfl, hstart⟩, hstop⟩ := h
  refine ⟨⟨front ++ before, after ++ back, by simp, ?_⟩, ?_⟩
  · rw [Span.forward, hstart, Text.byteLength_append, Nat.add_comm]
  · dsimp only [Span.forward]
    omega

namespace Expr

variable {f : Span → Span} {source source' : Text}

/-- Where the node stands, `source` holds what `source'` holds at the mapped place. -/
def SameText (f : Span → Span) (source source' : Text) (node : Expr) : Prop :=
  (f node.span).text source' = node.span.text source

theorem ofExponent?_mapSpan {exponent : Expr}
    (h : ∀ node ∈ exponent.nodes, node.SameText f source source') :
    Fraction.ofExponent? source' (exponent.mapSpan f) = Fraction.ofExponent? source exponent := by
  have hgroup (negated : Bool) {inner : Expr} {span : Span}
      (h : (group inner span).SameText f source source') :
      Fraction.ofGroup? negated (f span) source' = Fraction.ofGroup? negated span source := by
    rw [Fraction.ofGroup?, Fraction.ofGroup?, show (f span).text source' = _ from h]
    rfl
  cases exponent with
  | group inner span => exact hgroup false (h _ List.mem_cons_self)
  | negate operand span =>
    cases operand with
    | group inner place => exact hgroup true (h (group inner place) (by simp [nodes]))
    | _ => rfl
  | _ => rfl

theorem operandText_mapSpan {e : Expr} (h : e.SameText f source source')
    (value : Except Error Float) :
    operandText source' value (e.mapSpan f) = operandText source value e := by
  cases e with
  | literal x span =>
    rw [mapSpan, operandText, operandText, show (f span).text source' = _ from h]
    rfl
  | _ => rfl

/-- The value depends on the text at the spans alone. -/
theorem eval_mapSpan {settings : Settings} {read : Reader} {e : Expr}
    (h : ∀ node ∈ e.nodes, node.SameText f source source') :
    (e.mapSpan f).eval settings read source' = e.eval settings read source := by
  induction e with
  | literal => rfl
  | group inner span ih => exact ih fun node hmem => h node (List.mem_cons_of_mem _ hmem)
  | negate operand span ih =>
    rw [mapSpan, eval, eval, ih fun node hmem => h node (List.mem_cons_of_mem _ hmem)]
  | binary op left right span ihl ihr =>
    simp only [nodes, List.forall_mem_cons, List.forall_mem_append] at h
    obtain ⟨_, hleft, hright⟩ := h
    have hquote : (right.mapSpan f).span.text source' = right.span.text source := by
      rw [span_mapSpan]
      exact hright _ right.self_mem_nodes
    rw [mapSpan, eval, eval, ihl hleft, ihr hright, hquote, ofExponent?_mapSpan hright]
  | adjacent left right span ihl ihr =>
    simp only [nodes, List.forall_mem_cons, List.forall_mem_append] at h
    obtain ⟨_, hleft, hright⟩ := h
    rw [mapSpan, eval, eval, ihl hleft, ihr hright,
      operandText_mapSpan (hleft _ left.self_mem_nodes),
      operandText_mapSpan (hright _ right.self_mem_nodes)]

theorem Placed.exists_marks {node : Expr} (h : node.Placed source) :
    ∃ piece, node.span.Marks source piece := by
  cases node with
  | literal value span =>
    obtain ⟨run, x, _, ⟨hmarks, _⟩ | ⟨sign, hmarks, _⟩⟩ := h
    · exact ⟨run, hmarks⟩
    · exact ⟨_, hmarks⟩
  | group inner span => exact ⟨_, h.1.choose_spec⟩
  | negate operand span => exact ⟨_, h.1.choose_spec⟩
  | binary op left right span => exact h.1
  | adjacent left right span => exact h.1

theorem Placed.sameText {node : Expr} (h : node.Placed source) (front back : Text) :
    node.SameText (Span.forward front.byteLength) source (front ++ (source ++ back)) := by
  obtain ⟨piece, hmarks⟩ := h.exists_marks
  rw [SameText, hmarks.text_eq, (hmarks.forward front back).text_eq]

end Expr

section

variable {settings : Settings} {source text : Text} {e : Expr}

theorem evalText_of_parseText (h : parseText settings.toLimits text = .ok e) :
    evalText settings text = e.eval settings (evalText settings) text := by
  rw [evalText_eq, evalTextWith, h]

theorem parseText_of_evalText (h : ∀ error, evalText settings text ≠ .error (.parse error)) :
    ∃ e, parseText settings.toLimits text = .ok e := by
  rw [evalText_eq, evalTextWith] at h
  cases hparse : parseText settings.toLimits text with
  | error error =>
    rw [hparse] at h
    exact absurd rfl (h error)
  | ok e => exact ⟨e, rfl⟩

/-- An expression has the same value where its text stands in a longer one. -/
theorem eval_forward {limits : Limits} (h : parseText limits text = .ok e) (read : Reader)
    (front back : Text) :
    (e.mapSpan (Span.forward front.byteLength)).eval settings read (front ++ (text ++ back)) =
      e.eval settings read text :=
  Expr.eval_mapSpan fun node hmem => ((places_of_parseText h).nodes node hmem).sameText front back

/-- A group is parsed and evaluated as the text between its parentheses is on its own. -/
theorem value_group (h : parseText settings.toLimits source = .ok e) {inner : Expr} {span : Span}
    (hmem : .group inner span ∈ e.nodes) :
    ∃ inside : Text, span.text source = '(' :: (inside ++ [')']) ∧
      parseText settings.toLimits inside = .ok (inner.mapSpan (Span.back (span.start + 1))) ∧
      (inner.mapSpan (Span.back (span.start + 1))).mapSpan (Span.forward (span.start + 1)) =
        inner ∧
      (Expr.group inner span).value settings source = evalText settings inside := by
  obtain ⟨front, inside, back, e', rfl, rfl, hparse, rfl⟩ := exists_inside_of_parseText h hmem
  rw [Expr.mapSpan_back_forward]
  refine ⟨inside, Span.text_enclosed front inside back, hparse, rfl, ?_⟩
  have hlength : (front ++ ['(']).byteLength = front.byteLength + 1 := by
    rw [Text.byteLength_append]
    rfl
  have hvalue := @eval_forward settings _ _ _ hparse (evalText settings) (front ++ ['('])
    (')' :: back)
  rw [hlength, List.append_assoc, List.singleton_append] at hvalue
  rw [evalText_of_parseText hparse, ← hvalue]
  rfl

/-- A group that joins operands and has a fraction in it. -/
theorem value_group_joined : ∃ inner span,
    parseText {} "3*((9)4^(4/(2)))".toList =
      .ok (.join .mul (.literal 3 ⟨0, 1⟩) (.group inner span)) ∧
    (Expr.group inner span).value {} "3*((9)4^(4/(2)))".toList =
      evalText {} "(9)4^(4/(2))".toList := by
  have h : parseText {} "3*((9)4^(4/(2)))".toList =
      .ok (.join .mul (.literal 3 ⟨0, 1⟩) (.group
        (.join .pow (.beside (.group (.literal 9 ⟨4, 5⟩) ⟨3, 6⟩) (.literal 4 ⟨6, 7⟩))
          (.group (.join .div (.literal 4 ⟨9, 10⟩) (.group (.literal 2 ⟨12, 13⟩) ⟨11, 14⟩))
            ⟨8, 15⟩)) ⟨2, 16⟩)) := by
    decide +kernel
  obtain ⟨inside, htext, _, _, hvalue⟩ := @value_group {} _ _ h _ ⟨2, 16⟩
    (List.mem_cons_of_mem _ (List.mem_append_right _ List.mem_cons_self))
  have hinside : '(' :: (inside ++ [')']) = '(' :: ("(9)4^(4/(2))".toList ++ [')']) := htext.symm
  obtain rfl := List.append_cancel_right (List.cons.inj hinside).2
  exact ⟨_, _, h, hvalue⟩

/-! ### Parentheses around a text -/

namespace Text

theorem joinSigns_cons {c : Char} (hc : Sign.ofChar? c = none) (text : Text) :
    joinSigns (c :: text) = c :: joinSigns text := by
  cases text with
  | nil => rfl
  | cons d text => simp [joinSigns, hc]

theorem joinSigns_append_singleton {c : Char} (hc : Sign.ofChar? c = none) (text : Text) :
    joinSigns (text ++ [c]) = joinSigns text ++ [c] := by
  fun_induction joinSigns text with
  | case1 a b text s t ha hb ih =>
    rw [List.cons_append, List.cons_append, joinSigns, ha, hb]
    dsimp only
    rw [ih, List.cons_append]
  | case2 a b text hnone ih =>
    rw [List.cons_append, List.cons_append, joinSigns]
    split
    · next s t ha hb => exact (hnone s t ha hb).elim
    · rw [← List.cons_append, ih, List.cons_append]
  | case3 text hshort =>
    cases text with
    | nil => rfl
    | cons a text =>
      cases text with
      | nil => simp [joinSigns, hc]
      | cons b text => exact (hshort a b text rfl).elim

/-- No run of signs goes past a parenthesis. -/
theorem normalizeSigns_enclosed (text : Text) :
    normalizeSigns ('(' :: (text ++ [')'])) = '(' :: (normalizeSigns text ++ [')']) := by
  have hjoin (text : Text) :
      joinSigns ('(' :: (text ++ [')'])) = '(' :: (joinSigns text ++ [')']) := by
    rw [joinSigns_cons rfl, joinSigns_append_singleton rfl]
  fun_induction normalizeSigns text with
  | case1 text hlt ih =>
    rw [normalizeSigns, hjoin, if_pos (by simpa using hlt), ih]
  | case2 text hlt =>
    rw [normalizeSigns, hjoin, if_neg (by simpa using hlt)]

theorem stripBlanks_enclosed (text : Text) :
    stripBlanks ('(' :: (text ++ [')'])) = '(' :: (stripBlanks text ++ [')']) := by
  have hopening : isBlank '(' = false := rfl
  have hclosing : isBlank ')' = false := rfl
  simp [stripBlanks, hopening, hclosing]

end Text

/-- A text in parentheses has its own tokens between theirs. -/
theorem scan_enclosed {tokens : List Lexeme} (h : scan text = .ok tokens) :
    ∃ opened closed : Span, scan ('(' :: (text ++ [')'])) = .ok (⟨.opening, opened⟩ ::
      (tokens.map (Lexeme.mapSpan (Span.forward 1)) ++ [⟨.closing, closed⟩])) := by
  obtain ⟨htiles, hapart⟩ := scanFrom_eq_ok_iff.1 h
  have hclosing : Token.closing.Writes [')'] := rfl
  have hopening : Token.opening.Writes ['('] := rfl
  have hinside : Tiles (0 + Text.byteLength ['(']) text _ := htiles.forward 1
  have henclosed := Tiles.cons hopening (hinside.append (.cons hclosing .nil))
  refine ⟨_, _, scanFrom_eq_ok_iff.2 ⟨henclosed, apart_cons ?_ fun _ _ => nofun⟩⟩
  refine List.isChain_append.2 ⟨apart_mapSpan_iff.2 hapart, .singleton _, ?_⟩
  rintro _ _ _ ⟨⟩ _
  rfl

/-- A text in parentheses is a group of what it was, one level further in. -/
theorem parseText_enclosed {limits : Limits} (h : parseText limits text = .ok e) :
    ∃ span, parseText { limits with nesting := limits.nesting + 1 } ('(' :: (text ++ [')'])) =
      .ok (.group (e.mapSpan (Span.forward 1)) span) := by
  obtain ⟨tokens, hscan, hparse⟩ := bind_eq_ok.1 h
  obtain ⟨hphrase, hoperators⟩ := Grammar.parse_eq_ok_iff.1 hparse
  obtain ⟨opened, closed, hscan⟩ := scan_enclosed hscan
  have hgroup := @Grammar.Phrase.group _ opened _ closed _
    (hphrase.mapSpan (Span.respected_forward 1))
  have hlevel : Grammar.Phrase (limits.nesting + 1) (.level Grammar.additive .leading) _ _ :=
    .tighter (.tighter (.tighter (.tighter (.unsigned (.unraised (.single hgroup))))))
  refine ⟨opened.cover closed,
    bind_eq_ok.2 ⟨_, hscan, Grammar.parse_eq_ok_iff.2 ⟨hlevel, ?_⟩⟩⟩
  simpa [operatorCount, Lexeme.mapSpan, Function.comp_def, Token.isOperator] using hoperators

/-- In parentheses a text evaluates to the same, with a level of nesting for them. -/
theorem evaluate_enclosed (h : ∀ error, evaluate settings text ≠ .error (.parse error)) :
    evaluate { settings with nesting := settings.nesting + 1 } ('(' :: (text ++ [')'])) =
      evaluate settings text := by
  unfold evaluate at h ⊢
  rw [Text.stripBlanks_enclosed, Text.normalizeSigns_enclosed]
  generalize text.stripBlanks.normalizeSigns = text at h ⊢
  generalize hdeeper : { settings with nesting := settings.nesting + 1 } = deeper
  have hwithin : settings.Within deeper := by
    subst hdeeper
    exact ⟨⟨Nat.le_succ _, Nat.le_refl _⟩, rfl, rfl, rfl⟩
  obtain ⟨e, hparse⟩ := parseText_of_evalText h
  obtain ⟨span, henclosed⟩ := parseText_enclosed hparse
  have hdeep : parseText deeper.toLimits text = .ok e :=
    (hparse ▸ parseText_within hwithin.toWithin text).eq_ok
  have hvalue := @eval_forward deeper _ _ _ hdeep (evalText deeper) ['('] [')']
  calc evalText deeper ('(' :: (text ++ [')']))
    _ = (Expr.group (e.mapSpan (Span.forward 1)) span).eval deeper (evalText deeper)
        ('(' :: (text ++ [')'])) := by
      subst hdeeper
      exact evalText_of_parseText henclosed
    _ = evalText deeper text := by
      rw [evalText_of_parseText hdeep]
      exact hvalue
    _ = evalText settings text := by
      refine ((evalText_within hwithin text).eq fun error herror hlimit => ?_).symm
      cases error with
      | parse error => exact h error herror
      | exponent error => exact hlimit

/-- Blanks, a run of signs and a fraction, in limits that are just wide enough. -/
theorem evaluate_enclosed_blanks :
    evaluate { nesting := 3 } " - -3 * 2 ^ (4/(2))".toList = .ok 12 ∧
      evaluate { nesting := 4 } ('(' :: (" - -3 * 2 ^ (4/(2))".toList ++ [')'])) = .ok 12 := by
  have hvalue : evaluate { nesting := 3 } " - -3 * 2 ^ (4/(2))".toList = .ok 12 := by
    decide +kernel
  refine ⟨hvalue, ?_⟩
  rw [← hvalue]
  refine @evaluate_enclosed { nesting := 3 } _ fun error herror => ?_
  rw [hvalue] at herror
  cases herror

end

end Calculator
