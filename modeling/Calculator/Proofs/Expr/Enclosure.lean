import Calculator.Proofs.Expr.Parentheses
import Calculator.Proofs.Grammar.Relocation

/-! Groups in a text. Main statement: what stands between the parentheses of a group is a text of
its own, with the inside of the group as its expression. -/

namespace Calculator

open Grammar (bind_eq_ok)

namespace Grammar

/-- The group stands in the list, and its inside needs less than `room` levels. -/
inductive Encloses (inner : Expr) : (span : Span) → (room : Nat) → List Lexeme → Prop
  | intro {before inside after : List Lexeme} {opened closed : Span} {r room : Nat} : r < room →
    Phrase r (.level additive .leading) inside inner →
    Encloses inner (opened.cover closed) room
      (before ++ ⟨.opening, opened⟩ :: (inside ++ ⟨.closing, closed⟩ :: after))

section

variable {inner : Expr} {span : Span} {room room' : Nat} {tokens : List Lexeme}

theorem Encloses.append_left (h : Encloses inner span room tokens) (front : List Lexeme) :
    Encloses inner span room (front ++ tokens) := by
  cases h with
  | @intro before inside after opened closed r _ hr hinside =>
    rw [← List.append_assoc]
    exact .intro hr hinside

theorem Encloses.append_right (h : Encloses inner span room tokens) (back : List Lexeme) :
    Encloses inner span room (tokens ++ back) := by
  cases h with
  | @intro before inside after opened closed r _ hr hinside =>
    rw [List.append_assoc, List.cons_append, List.append_assoc, List.cons_append]
    exact .intro hr hinside

theorem Encloses.mono (h : Encloses inner span room tokens) (hle : room ≤ room') :
    Encloses inner span room' tokens := by
  cases h with
  | intro hr hinside => exact .intro (Nat.lt_of_lt_of_le hr hle) hinside

/-- No group begins with a number. -/
theorem Encloses.tail {value : Float} {place : Span}
    (h : Encloses inner span room (⟨.number value, place⟩ :: tokens)) :
    Encloses inner span room tokens := by
  generalize heq : (⟨.number value, place⟩ : Lexeme) :: tokens = list at h
  cases h with
  | @intro before inside after opened closed r _ hr hinside =>
    cases before with
    | nil => cases heq
    | cons t before =>
      rw [List.cons_append, List.cons.injEq] at heq
      rw [heq.2]
      exact .intro hr hinside

end

theorem Phrase.encloses {room : Nat} {form : Form} {tokens : List Lexeme} {e inner : Expr}
    {span : Span} (h : Phrase room form tokens e) (hmem : .group inner span ∈ e.nodes) :
    Encloses inner span room tokens := by
  induction h with
  | number => simp [Expr.nodes] at hmem
  | @group room opened inside closed _ hinside ih =>
    rcases List.mem_cons.1 hmem with heq | hmem
    · cases heq
      exact @Encloses.intro _ [] _ [] _ _ _ _ (Nat.lt_succ_self room) hinside
    · exact (((ih hmem).append_right _).append_left [_]).mono (Nat.le_succ room)
  | single _ ih | unraised _ ih | unsigned _ ih | tighter _ ih => exact ih hmem
  | beside _ _ ihl ihr =>
    simp only [Expr.beside, Expr.nodes, List.mem_cons, List.mem_append, reduceCtorEq,
      false_or] at hmem
    rcases hmem with hmem | hmem
    · exact (ihl hmem).append_right _
    · exact (ihr hmem).append_left _
  | raised _ _ ihl ihr | join _ _ ihl ihr =>
    simp only [Expr.join, Expr.nodes, List.mem_cons, List.mem_append, reduceCtorEq,
      false_or] at hmem
    rw [List.append_cons]
    rcases hmem with hmem | hmem
    · exact ((ihl hmem).append_right _).append_right _
    · exact ((ihr hmem).append_left _).mono (by omega)
  | @fused room t _ value place rest _ _ _ ih =>
    exact (ih hmem).tail.append_left [t, ⟨.number value, place⟩]
  | @signed room _ t _ _ _ _ _ _ ih =>
    rcases nodes_signed _ _ _ _ hmem with hmem | heq
    · exact ((ih hmem).append_left [t]).mono (Nat.le_succ room)
    · cases heq

end Grammar

/-- A text with a group, cut at the parentheses. -/
theorem Tiles.exists_inside {source : Text} {before inside after : List Lexeme}
    {opened closed : Span}
    (h : Tiles 0 source
      (before ++ ⟨.opening, opened⟩ :: (inside ++ ⟨.closing, closed⟩ :: after))) :
    ∃ front text back : Text, source = front ++ '(' :: (text ++ ')' :: back) ∧
      opened.cover closed = ⟨front.byteLength, front.byteLength + 1 + text.byteLength + 1⟩ ∧
      Tiles (front.byteLength + 1) text inside := by
  obtain ⟨front, rest, rfl, -, hrest⟩ := h.split
  rw [Nat.zero_add] at hrest
  cases hrest with
  | cons hopening hrest =>
    obtain rfl := hopening
    obtain ⟨text, rest, rfl, htext, hrest⟩ := hrest.split
    cases hrest with
    | cons hclosing hrest =>
      obtain rfl := hclosing
      refine ⟨front, text, _, rfl, ?_, htext⟩
      exact Span.cover_of_le (by dsimp only; omega) (by dsimp only; omega)

/-- The text at a pair of parentheses. -/
theorem Span.text_enclosed (front inside back : Text) :
    (⟨front.byteLength, front.byteLength + 1 + inside.byteLength + 1⟩ : Span).text
      (front ++ '(' :: (inside ++ ')' :: back)) = '(' :: (inside ++ [')']) := by
  have htext := Span.text_append front ('(' :: (inside ++ [')'])) back
  have hopening : '('.utf8Size = 1 := rfl
  have hclosing : ')'.utf8Size = 1 := rfl
  simpa [Nat.add_assoc, hopening, hclosing] using htext

/-- A phrase further on in a text is parsed on its own. -/
theorem parseText_of_tiles {limits : Limits} {n : Nat} {text : Text} {tokens : List Lexeme}
    {e : Expr} (htiles : Tiles n text tokens) (hapart : Apart tokens)
    (hphrase : Grammar.Phrase limits.nesting (.level Grammar.additive .leading) tokens e)
    (hoperators : operatorCount tokens ≤ limits.operators) :
    ∃ e', parseText limits text = .ok e' ∧ e = e'.mapSpan (Span.forward n) := by
  rw [← Nat.zero_add n] at htiles
  obtain ⟨tokens', htiles', rfl⟩ := htiles.exists_forward
  obtain ⟨e', hphrase', heq⟩ := hphrase.exists_of_forward
  rw [operatorCount_mapSpan] at hoperators
  refine ⟨e', bind_eq_ok.2 ⟨tokens', ?_, ?_⟩, heq⟩
  · exact scanFrom_eq_ok_iff.2 ⟨htiles', apart_mapSpan_iff.1 hapart⟩
  · exact Grammar.parse_of_phrase hphrase' hoperators text

/-- What stands between the parentheses of a group is parsed like the inside of the group. -/
theorem exists_inside_of_parseText {limits : Limits} {source : Text} {e inner : Expr} {span : Span}
    (h : parseText limits source = .ok e) (hmem : .group inner span ∈ e.nodes) :
    ∃ (front inside back : Text) (e' : Expr), source = front ++ '(' :: (inside ++ ')' :: back) ∧
      span = ⟨front.byteLength, front.byteLength + 1 + inside.byteLength + 1⟩ ∧
      parseText limits inside = .ok e' ∧
      inner = e'.mapSpan (Span.forward (front.byteLength + 1)) := by
  obtain ⟨tokens, hscan, hparse⟩ := bind_eq_ok.1 h
  obtain ⟨htiles, hapart⟩ := scanFrom_eq_ok_iff.1 hscan
  have hoperators := Grammar.operatorCount_le_of_parse hparse
  have hencloses := (Grammar.phrase_of_parse hparse).encloses hmem
  cases hencloses with
  | @intro before inside after opened closed room _ hroom hinside =>
    have hinfix : inside <:+:
        before ++ ⟨.opening, opened⟩ :: (inside ++ ⟨.closing, closed⟩ :: after) :=
      ⟨before ++ [⟨.opening, opened⟩], ⟨.closing, closed⟩ :: after, by simp⟩
    have hapart' : Apart inside := List.IsChain.infix hapart hinfix
    obtain ⟨front, text, back, hsource, hspan, htext⟩ := htiles.exists_inside
    obtain ⟨e', hparse', hinner⟩ := parseText_of_tiles htext hapart'
      (hinside.mono (Nat.le_of_lt hroom)) (Nat.le_trans hinfix.sublist.countP_le hoperators)
    exact ⟨front, text, back, e', hsource, hspan, hparse', hinner⟩

end Calculator
