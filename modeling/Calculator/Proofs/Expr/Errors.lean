import Calculator.Proofs.Expr.Rereading
import Calculator.Proofs.Expr.Sides

/-! Where the errors of an evaluation come from. Main statement: once a text is parsed, nothing
fails to be parsed on the way but operands that were joined to one text, and no power means no
error of an exponent. -/

namespace Calculator

open Grammar (bind_eq_ok bind_eq_error)

/-! ### Errors of what is read, and others -/

/-- An error of the computation is that of a text in the list, or is of the given kind. -/
def FailsBy {α : Type} (kind : Error → Prop) (run : Reader → Except Error α)
    (reads : Reader → List Text) : Prop :=
  ∀ ⦃read error⦄, run read = .error error →
    (∃ inner ∈ reads read, read inner = .error error) ∨ kind error

namespace FailsBy

variable {α β : Type} {kind : Error → Prop} {run : Reader → Except Error α}
  {reads : Reader → List Text}

theorem ok (a : α) : FailsBy kind (fun _ => .ok a) reads := fun _ _ h => by cases h

theorem ask (text : Text) : FailsBy kind (fun read => read text) fun _ => [text] :=
  fun _ _ h => .inl ⟨text, List.mem_singleton.2 rfl, h⟩

theorem bind {f : α → Reader → Except Error β} {g : α → Reader → List Text}
    (h : FailsBy kind run reads) (hf : ∀ a, FailsBy kind (f a) (g a)) :
    FailsBy kind (fun read => (run read).bind fun a => f a read)
      (fun read => reads read ++ readsAfter (run read) fun a => g a read) := by
  intro read error herror
  rcases bind_eq_error.1 herror with herror | ⟨a, hrun, herror⟩
  · rcases h herror with ⟨inner, hmem, hinner⟩ | hkind
    · exact .inl ⟨inner, List.mem_append_left _ hmem, hinner⟩
    · exact .inr hkind
  · rcases hf a herror with ⟨inner, hmem, hinner⟩ | hkind
    · have hafter : inner ∈ readsAfter (run read) fun a => g a read :=
        mem_readsAfter.2 ⟨a, hrun, hmem⟩
      exact .inl ⟨inner, List.mem_append_right _ hafter, hinner⟩
    · exact .inr hkind

/-- What is done with the result has errors of the given kind only. -/
theorem andThen {f : α → Except Error β} (h : FailsBy kind run reads)
    (hf : ∀ a error, f a = .error error → kind error) :
    FailsBy kind (fun read => (run read).bind f) reads := by
  intro read error herror
  rcases bind_eq_error.1 herror with herror | ⟨a, _, herror⟩
  · exact h herror
  · exact .inr (hf a error herror)

/-- What is made of the result cannot fail. -/
theorem map (h : FailsBy kind run reads) (f : α → β) :
    FailsBy kind (fun read => (run read).bind fun a => .ok (f a)) reads :=
  h.andThen fun _ _ herror => by cases herror

end FailsBy

section

variable {kind : Error → Prop}

/-- The errors of an exponent are of the kind, if they quote `quote`. -/
def Error.Exponents (kind : Error → Prop) (quote : Text) : Prop :=
  ∀ error : ExponentError, error.text = quote → kind (.exponent error)

variable {quote : Text}

theorem Fraction.side_fails (hkind : Error.Exponents kind quote) (text : Text) :
    FailsBy kind (fun read => side read quote text) fun _ => [text] := by
  refine (FailsBy.ask text).andThen fun x error herror => ?_
  split at herror
  · cases herror
  · cases herror
    exact hkind _ rfl

theorem Fraction.value_fails (hkind : Error.Exponents kind quote) (fraction : Fraction) :
    FailsBy kind (fun read => fraction.value read quote) fun read => fraction.reads read quote := by
  refine (side_fails hkind fraction.numerator).bind fun n =>
    (side_fails hkind fraction.denominator).andThen fun d error herror => ?_
  split at herror
  · cases herror
    exact hkind _ rfl
  · split at herror
    · cases herror
    · cases herror
      exact hkind _ rfl

theorem kind_of_wholePower (hkind : Error.Exponents kind quote) {base value : Float} {error : Error}
    (h : wholePower base value quote = .error error) : kind error := by
  unfold wholePower at h
  split at h
  · cases h
  · split at h
    · cases h
    · cases h
      exact hkind _ rfl

namespace Expr

variable {settings : Settings} {source : Text}

theorem operandText_fails {e : Expr} (h : FailsBy kind (fun read => e.eval settings read source)
      fun read => e.reads settings read source) :
    FailsBy kind (fun read => operandText source (e.eval settings read source) e)
      fun read => e.reads settings read source := by
  cases e with
  | literal value span => exact .ok _
  | _ => exact h.map _

/-- But for powers there are no other errors than those of the texts that are read. -/
theorem eval_fails {e : Expr} (hpow : ∀ left right span, .binary .pow left right span ∈ e.nodes →
      Error.Exponents kind (right.span.text source)) :
    FailsBy kind (fun read => e.eval settings read source)
      fun read => e.reads settings read source := by
  induction e with
  | literal value span => exact .ok _
  | group inner span ih => exact ih fun l r place hmem => hpow l r place (by simp [nodes, hmem])
  | negate operand span ih =>
    have hoperand := ih fun l r place hmem => hpow l r place (by simp [nodes, hmem])
    exact hoperand.map _
  | binary op left right span ihl ihr =>
    have hleft := ihl fun l r place hmem => hpow l r place (by simp [nodes, hmem])
    have hright := ihr fun l r place hmem => hpow l r place (by simp [nodes, hmem])
    refine hleft.bind fun x => ?_
    by_cases hop : op = .pow
    · subst hop
      have hkind := hpow left right span (self_mem_nodes _)
      simp only [if_true]
      cases Fraction.ofExponent? source right with
      | some fraction => exact (Fraction.value_fails hkind fraction).map _
      | none => exact hright.andThen fun y error h => kind_of_wholePower hkind h
    · simp only [if_neg hop]
      exact hright.map _
  | adjacent left right span ihl ihr =>
    have hleft := ihl fun l r place hmem => hpow l r place (by simp [nodes, hmem])
    have hright := ihr fun l r place hmem => hpow l r place (by simp [nodes, hmem])
    exact (operandText_fails hleft).bind fun first =>
      (operandText_fails hright).bind fun second => .ask _

end Expr

end

/-! ### Texts that are joined -/

/-- The evaluation of the expression comes to a text that two neighbours make up, in the expression
itself or in one that is read for it. -/
inductive Joins (settings : Settings) : (e : Expr) → (source joined : Text) → Prop
  | here {e left right span source joined} : .adjacent left right span ∈ e.nodes →
    Expr.joinedText settings (evalText settings) source left right = .ok joined →
    Joins settings e source joined
  | inside {e source text inner joined} : text ∈ e.reads settings (evalText settings) source →
    parseText settings.toLimits text = .ok inner → Joins settings inner text joined →
    Joins settings e source joined

section

variable {settings : Settings} {source : Text} {e : Expr}

/-- What is read is a side of a fraction, and so an expression, or it is joined. -/
theorem side_or_joined {read : Reader} (h : parseText settings.toLimits source = .ok e) :
    ∀ text ∈ e.reads settings read source, IsSide settings.toLimits e text ∨
      ∃ left right span, .adjacent left right span ∈ e.nodes ∧
        Expr.joinedText settings read source left right = .ok text := by
  refine Expr.forall_mem_reads (fun base exponent span hmem fraction hsome => ?_)
    fun left right span hmem joined hjoined => .inr ⟨left, right, span, hmem, hjoined⟩
  exact (isSide_of_ofExponent? h (Expr.mem_nodes_of_binary hmem).2 hsome).imp .inl .inl

theorem not_joins_of_unjoined {joined : Text} (h : parseText settings.toLimits source = .ok e)
    (hunjoined : e.Unjoined) : ¬Joins settings e source joined := by
  intro hjoins
  induction hjoins with
  | here hmem => exact hunjoined _ _ _ hmem
  | inside hread hparse _ ih =>
    rcases side_or_joined h _ hread with ⟨side, hside, hsame⟩ | ⟨left, right, span, hmem, _⟩
    · rw [hparse] at hside
      cases hside
      exact ih hparse (hsame hunjoined)
    · exact hunjoined _ _ _ hmem

/-- Of all that evaluation reads, only what it joins may fail to be parsed. -/
theorem exists_joined_of_parseError {error : ParseError}
    (h : parseText settings.toLimits source = .ok e)
    (herror : e.value settings source = .error (.parse error)) :
    ∃ joined, Joins settings e source joined ∧
      parseText settings.toLimits joined = .error error := by
  induction source using reads_induction settings (evalText settings) generalizing e with
  | ind source ih =>
    have hfails : FailsBy (fun error => ∃ x, error = .exponent x)
        (fun read => e.eval settings read source) fun read => e.reads settings read source :=
      Expr.eval_fails fun _ _ _ _ x _ => ⟨x, rfl⟩
    rcases hfails herror with ⟨text, hmem, htext⟩ | ⟨x, hx⟩
    · rcases evalText_error htext with ⟨inner, hparse, hvalue⟩ | ⟨error', hparse, heq⟩
      · obtain ⟨joined, hjoins, hjoined⟩ := ih e h e e.self_mem_nodes text hmem hparse hvalue
        exact ⟨joined, .inside hmem hparse hjoins, hjoined⟩
      · cases heq
        rcases side_or_joined h text hmem with ⟨side, hside, _⟩ | ⟨left, right, span, hjoined⟩
        · rw [hparse] at hside
          cases hside
        · exact ⟨text, .here hjoined.1 hjoined.2, hparse⟩
    · cases hx

/-- A power is written with its operator. -/
theorem mem_source_of_pow {left right : Expr} {span : Span}
    (h : parseText settings.toLimits source = .ok e)
    (hmem : .binary .pow left right span ∈ e.nodes) : '^' ∈ source := by
  obtain ⟨_, _, ⟨hholds, _⟩ | ⟨hholds, _⟩⟩ := (places_of_parseText h).nodes _ hmem
  · obtain ⟨before, after, heq, _⟩ := hholds
    simp [heq, BinaryOp.toChar]
  · obtain ⟨before, after, heq, _⟩ := hholds
    simp [heq, BinaryOp.toChar]

/-- Without a power in the text there is no error of an exponent. -/
theorem evalText_ne_exponent (h : '^' ∉ source) (error : ExponentError) :
    evalText settings source ≠ .error (.exponent error) := by
  induction source using reads_induction settings (evalText settings) with
  | ind source ih =>
    intro herror
    rcases evalText_error herror with ⟨e, hparse, hvalue⟩ | ⟨_, _, heq⟩
    · have hplaced := (places_of_parseText hparse).nodes
      have hfails : FailsBy (fun _ => False) (fun read => e.eval settings read source)
          fun read => e.reads settings read source :=
        Expr.eval_fails fun _ _ _ hmem => absurd (mem_source_of_pow hparse hmem) h
      rcases hfails hvalue with ⟨text, hmem, htext⟩ | hfalse
      · have hpower : ∀ text ∈ e.reads settings (evalText settings) source, '^' ∉ text := by
          refine Expr.forall_mem_reads (fun _ _ _ hmem => absurd (mem_source_of_pow hparse hmem) h)
            fun left right span hmem joined hjoined => ?_
          obtain ⟨hleft, hright⟩ := Expr.mem_nodes_of_adjacent hmem
          exact Expr.not_mem_joinedText rfl (hplaced _ hleft) (hplaced _ hright) hjoined
        exact ih e hparse e e.self_mem_nodes text hmem (hpower text hmem) htext
      · exact hfalse
    · cases heq

end

/-- In an accepted text both sides of every fractional exponent are accepted. So an error of
parsing is one of operands that were joined, and there is none where no operands stand side by
side; an error of an exponent needs a power in the text. -/
theorem evaluation_errors (settings : Settings) :
    (∀ (source : Text) (e : Expr), parseText settings.toLimits source = .ok e →
      (∀ base exponent span, .binary .pow base exponent span ∈ e.nodes →
        ∀ fraction, Fraction.ofExponent? source exponent = some fraction →
          (∃ side, parseText settings.toLimits fraction.numerator = .ok side) ∧
            ∃ side, parseText settings.toLimits fraction.denominator = .ok side) ∧
      (∀ error, e.value settings source = .error (.parse error) →
        ∃ joined, Joins settings e source joined ∧
          parseText settings.toLimits joined = .error error) ∧
      ((∀ left right span, .adjacent left right span ∉ e.nodes) →
        (∃ x, e.value settings source = .ok x) ∨
          ∃ error, e.value settings source = .error (.exponent error))) ∧
    ∀ source : Text, '^' ∉ source →
      ∀ error, evalText settings source ≠ .error (.exponent error) := by
  refine ⟨fun source e h => ⟨?_, ?_, ?_⟩, fun source hpower error => ?_⟩
  · intro base exponent span hmem fraction hsome
    obtain ⟨⟨n, hn, _⟩, d, hd, _⟩ :=
      isSide_of_ofExponent? h (Expr.mem_nodes_of_binary hmem).2 hsome
    exact ⟨⟨n, hn⟩, d, hd⟩
  · exact fun error => exists_joined_of_parseError h
  · intro hunjoined
    cases hvalue : e.value settings source with
    | ok x => exact .inl ⟨x, rfl⟩
    | error error =>
      cases error with
      | parse error =>
        obtain ⟨joined, hjoins, _⟩ := exists_joined_of_parseError h hvalue
        exact absurd hjoins (not_joins_of_unjoined h hunjoined)
      | exponent error => exact .inr ⟨error, rfl⟩
  · exact evalText_ne_exponent hpower error

/-- A fraction with a sign on either side, and joined operands that make up no number. -/
theorem evaluation_errors_fraction :
    ((∃ side, parseText {} "-(2+1)".toList = .ok side) ∧
      ∃ side, parseText {} "-2".toList = .ok side) ∧
    (∃ e, parseText {} "9^(-(2+1)/-2)".toList = .ok e ∧
      ((∃ x, e.value {} "9^(-(2+1)/-2)".toList = .ok x) ∨
        ∃ error, e.value {} "9^(-(2+1)/-2)".toList = .error (.exponent error))) ∧
    (∃ e joined, parseText {} "(0/0)2".toList = .ok e ∧ Joins {} e "(0/0)2".toList joined ∧
      parseText {} joined = .error (.malformedNumber ['N'])) ∧
    ∀ error, evalText {} "(0/0)2".toList ≠ .error (.exponent error) := by
  have hfraction : parseText {} "9^(-(2+1)/-2)".toList =
      .ok (.join .pow (.literal 9 ⟨0, 1⟩) (.group
        (.join .div
          (.negate (.group (.join .add (.literal 2 ⟨5, 6⟩) (.literal 1 ⟨7, 8⟩)) ⟨4, 9⟩) ⟨3, 9⟩)
          (.negate (.literal 2 ⟨11, 12⟩) ⟨10, 12⟩)) ⟨2, 13⟩)) := by
    decide +kernel
  have hjoined : parseText {} "(0/0)2".toList =
      .ok (.beside (.group (.join .div (.literal 0 ⟨1, 2⟩) (.literal 0 ⟨3, 4⟩)) ⟨0, 5⟩)
        (.literal 2 ⟨5, 6⟩)) := by
    decide +kernel
  obtain ⟨haccepted, hpower⟩ := evaluation_errors {}
  obtain ⟨hsides, _, hvalue⟩ := haccepted _ _ hfraction
  obtain ⟨_, herror, _⟩ := haccepted _ _ hjoined
  refine ⟨?_, ⟨_, hfraction, hvalue ?_⟩, ?_, hpower _ (by decide)⟩
  · exact hsides _ _ _ List.mem_cons_self ⟨"-(2+1)".toList, "-2".toList, false⟩ (by decide +kernel)
  · simp [Expr.join, Expr.nodes]
  · obtain ⟨joined, hjoins, hparse⟩ := herror (.malformedNumber ['N']) (by decide +kernel)
    exact ⟨_, joined, hjoined, hjoins, hparse⟩

end Calculator
