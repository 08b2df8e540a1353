import Calculator.Proofs.Grammar.Nesting

/-! Where a level ends. Main statement: what a level has taken is followed by nothing, by a closing
parenthesis, or by an operator that binds more loosely; and it takes the same whichever of these
comes next. So the inside of a group is never followed by anything that does not close it. -/

namespace Calculator.Grammar

/-- Nothing comes, or a closing parenthesis, or one of the operators. -/
def EndsIn (looser : List BinaryOp) (rest : List Lexeme) : Prop :=
  ∀ t ∈ rest.head?, t.token = .closing ∨ ∃ op ∈ looser, t.token = .operator op

/-- The rest of a group, where any token after the inside is taken to close it. -/
def readGroupUnchecked (source : Text) (nested : Nested) (opened : Span) :
    List Lexeme → Reading
  | [] => .error (.unmatchedParenthesis (opened.textFrom source))
  | t :: tokens =>
    if t.token = .closing then .error (.emptyGroup ((opened.cover t.span).text source))
    else do
      let (inner, rest) ← nested.expression.run (t :: tokens)
      match rest with
      | [] => .error (.unmatchedParenthesis (opened.textFrom source))
      | closed :: rest => return (.group inner (opened.cover closed.span), rest)

section

variable {looser ops : List BinaryOp} {position : Position} {rest : List Lexeme}

/-- Of the operators of the levels, those that are not of this one bind more loosely. -/
theorem endsIn_iff (h : looser ++ ops = additive) :
    EndsIn looser rest ↔ (Form.level ops position).EndsBefore rest := by
  have hnodup : (looser ++ ops).Nodup := by
    rw [h]
    decide
  have hpow : BinaryOp.pow ∉ looser ++ ops := by
    rw [h]
    decide
  have hall (op : BinaryOp) (hop : op ≠ .pow) : op ∈ looser ∨ op ∈ ops := by
    rw [← List.mem_append, h]
    cases op <;> first | exact absurd rfl hop | decide
  refine forall_congr' fun t => imp_congr_right fun _ => ?_
  constructor
  · rintro (ht | ⟨op, hop, ht⟩)
    · simp [Form.MayPrecede, ht, Token.beginsOperand]
    · rw [ht]
      refine ⟨⟨rfl, ?_⟩, ?_⟩
      · rintro ⟨⟩
        exact hpow (List.mem_append_left _ hop)
      · rintro _ hmem ⟨⟩
        exact (List.nodup_append.1 hnodup).2.2 _ hop _ hmem rfl
  · rintro ⟨⟨hoperand, hpower⟩, hops⟩
    obtain ⟨token, place⟩ := t
    cases token with
    | closing => exact .inl rfl
    | operator op =>
      have hop : op ≠ .pow := fun heq => hpower (congrArg Token.operator heq)
      exact .inr ⟨op, (hall op hop).resolve_right fun hmem => hops op hmem rfl, rfl⟩
    | _ => cases hoperand

end

/-- What follows the inside of a group closes it, at whatever depth. -/
theorem closing_of_nested {source : Text} {limit room : Nat} {tokens rest : List Lexeme}
    {inner : Expr} {t : Lexeme}
    (h : (nested source limit room).expression.run tokens = .ok (inner, t :: rest)) :
    t.token = .closing := by
  obtain ⟨_, _, _, hfollow⟩ := (nested_finds source limit room).expression tokens h
  have hends : EndsIn [] (t :: rest) := (endsIn_iff (List.nil_append additive)).2 hfollow
  rcases hends t rfl with ht | ⟨op, hop, _⟩
  · exact ht
  · cases hop

theorem readGroup_eq_unchecked (source : Text) (limit room : Nat) (opened : Span)
    (tokens : List Lexeme) :
    readGroup source (nested source limit room) opened tokens =
      readGroupUnchecked source (nested source limit room) opened tokens := by
  cases tokens with
  | nil => rfl
  | cons t tokens =>
    rw [readGroup, readGroupUnchecked]
    split
    · rfl
    · cases hrun : (nested source limit room).expression.run (t :: tokens) with
      | error error => rfl
      | ok found =>
        obtain ⟨inner, _ | ⟨closed, rest⟩⟩ := found
        · rfl
        · exact if_pos (closing_of_nested hrun)

/-- A level that binds tighter than `looser`, at any depth and in any position, takes some tokens
and ends where nothing follows, or a closing parenthesis, or one of the looser operators. Whichever
of these follows instead, it takes the same. In particular the test whether a group is closed never
fails after its inside. -/
theorem level_locality (source : Text) (limit depth : Nat) :
    (∀ looser ops position tokens e rest, looser ++ ops = additive →
      (level source (nested source limit (limit - depth)) ops position).run tokens =
        .ok (e, rest) →
      ∃ used, used ≠ [] ∧ tokens = used ++ rest ∧ EndsIn looser rest ∧
        ∀ rest', EndsIn looser rest' →
          (level source (nested source limit (limit - depth)) ops position).run (used ++ rest') =
            .ok (e, rest')) ∧
    ∀ opened tokens,
      readGroup source (nested source limit (limit - depth)) opened tokens =
        readGroupUnchecked source (nested source limit (limit - depth)) opened tokens := by
  refine ⟨?_, readGroup_eq_unchecked source limit (limit - depth)⟩
  intro looser ops position tokens e rest hops hrun
  obtain ⟨used, hsplit, hused, hfollow⟩ :=
    level_finds (nested_finds source limit (limit - depth)) ops position tokens hrun
  refine ⟨used, hused.ne_nil, hsplit, (endsIn_iff hops).2 hfollow, fun rest' hrest' => ?_⟩
  exact run_of_reads (hused.reads source limit) ⟨looser, hops⟩ ((endsIn_iff hops).1 hrest')

/-- A difference inside a group, before an addition without an operand and before the end of the
group. -/
theorem level_locality_difference : ∃ used e, scan "3-2^(1)".toList = .ok used ∧
    (level [] (nested [] 3 (3 - 1)) subtractive .operand).run
      (used ++ [⟨.operator .add, ⟨7, 8⟩⟩, ⟨.operator .pow, ⟨8, 9⟩⟩]) =
        .ok (e, [⟨.operator .add, ⟨7, 8⟩⟩, ⟨.operator .pow, ⟨8, 9⟩⟩]) ∧
    (level [] (nested [] 3 (3 - 1)) subtractive .operand).run
      (used ++ [⟨.closing, ⟨7, 8⟩⟩, ⟨.opening, ⟨8, 9⟩⟩]) =
        .ok (e, [⟨.closing, ⟨7, 8⟩⟩, ⟨.opening, ⟨8, 9⟩⟩]) := by
  have hscan : scan "3-2^(1)".toList = .ok [⟨.number 3, ⟨0, 1⟩⟩, ⟨.operator .sub, ⟨1, 2⟩⟩,
      ⟨.number 2, ⟨2, 3⟩⟩, ⟨.operator .pow, ⟨3, 4⟩⟩, ⟨.opening, ⟨4, 5⟩⟩, ⟨.number 1, ⟨5, 6⟩⟩,
      ⟨.closing, ⟨6, 7⟩⟩] := by
    decide +kernel
  have hrun : (level [] (nested [] 3 (3 - 1)) subtractive .operand).run ([⟨.number 3, ⟨0, 1⟩⟩,
      ⟨.operator .sub, ⟨1, 2⟩⟩, ⟨.number 2, ⟨2, 3⟩⟩, ⟨.operator .pow, ⟨3, 4⟩⟩, ⟨.opening, ⟨4, 5⟩⟩,
      ⟨.number 1, ⟨5, 6⟩⟩, ⟨.closing, ⟨6, 7⟩⟩] ++ [⟨.operator .add, ⟨7, 8⟩⟩,
      ⟨.operator .pow, ⟨8, 9⟩⟩]) =
      .ok (.join .sub (.literal 3 ⟨0, 1⟩) (.join .pow (.literal 2 ⟨2, 3⟩)
        (.group (.literal 1 ⟨5, 6⟩) ⟨4, 7⟩)),
        [⟨.operator .add, ⟨7, 8⟩⟩, ⟨.operator .pow, ⟨8, 9⟩⟩]) := by
    decide +kernel
  obtain ⟨used, _, hsplit, _, hlocal⟩ := (level_locality [] 3 1).1 [.add] subtractive .operand _ _
    _ rfl hrun
  obtain rfl := List.append_cancel_right hsplit
  exact ⟨_, _, hscan, hrun, hlocal [⟨.closing, ⟨7, 8⟩⟩, ⟨.opening, ⟨8, 9⟩⟩] fun t ht => by
    cases ht
    exact .inl rfl⟩

end Calculator.Grammar
