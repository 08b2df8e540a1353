import Calculator.Evaluate
import Calculator.Proofs.Expr.Parentheses

/-! The texts that evaluation writes for itself and reads. Main statement: each has fewer opening
parentheses than the text whose expression asks for it, so that evaluation ends on every text. -/

namespace Calculator

open Grammar (bind_eq_ok)

/-- What gives a text its value. -/
abbrev Reader := Text → Except Error Float

/-- The texts that are read when `x` is there; none are after an error. -/
def readsAfter {α : Type} (x : Except Error α) (reads : α → List Text) : List Text :=
  match x with
  | .ok a => reads a
  | .error _ => []

theorem mem_readsAfter {α : Type} {x : Except Error α} {reads : α → List Text} {inner : Text} :
    inner ∈ readsAfter x reads ↔ ∃ a, x = .ok a ∧ inner ∈ reads a := by
  cases x <;> simp [readsAfter]

/-- The texts that a fraction is read from. -/
def Fraction.reads (fraction : Fraction) (read : Reader) (quote : Text) : List Text :=
  fraction.numerator ::
    readsAfter (side read quote fraction.numerator) fun _ => [fraction.denominator]

namespace Expr

variable (settings : Settings) (read : Reader) (source : Text)

/-- The texts that are read for the value of an expression, the first one first. -/
def reads : Expr → List Text
  | literal _ _ => []
  | group inner _ => inner.reads
  | negate operand _ => operand.reads
  | binary op left right _ =>
    left.reads ++ readsAfter (left.eval settings read source) fun _ =>
      if op = .pow then
        match Fraction.ofExponent? source right with
        | some fraction => fraction.reads read (right.span.text source)
        | none => right.reads
      else right.reads
  | adjacent left right _ =>
    left.reads ++ readsAfter (operandText source (left.eval settings read source) left) fun first =>
      right.reads ++ readsAfter (operandText source (right.eval settings read source) right)
        fun second => [Text.normalizeSigns (first ++ second)]

end Expr

/-! ### Nothing else is read -/

/-- The computation depends on no other answers than those to the texts in the list, and it fails
as soon as one of them does. -/
structure Asks {α : Type} (run : Reader → Except Error α) (reads : Reader → List Text) :
    Prop where
  congr {read read' : Reader} : (∀ inner ∈ reads read, read inner = read' inner) →
    run read = run read'
  fails {read : Reader} {inner : Text} {error : Error} : inner ∈ reads read →
    read inner = .error error → run read = .error error

namespace Asks

variable {α β : Type} {run : Reader → Except Error α} {reads : Reader → List Text}

theorem const (x : Except Error α) : Asks (fun _ => x) fun _ => [] :=
  ⟨fun _ => rfl, fun h => nomatch h⟩

theorem ask (text : Text) : Asks (fun read => read text) fun _ => [text] := by
  refine ⟨fun h => h text (List.mem_singleton.2 rfl), fun h herror => ?_⟩
  rwa [List.mem_singleton.1 h] at herror

theorem bind {f : α → Reader → Except Error β} {g : α → Reader → List Text} (h : Asks run reads)
    (hf : ∀ a, Asks (f a) (g a)) :
    Asks (fun read => (run read).bind fun a => f a read)
      (fun read => reads read ++ readsAfter (run read) fun a => g a read) := by
  constructor
  · intro read read' hagree
    simp only [List.mem_append, or_imp, forall_and] at hagree
    rw [← h.congr hagree.1]
    cases hrun : run read with
    | error e => rfl
    | ok a => exact (hf a).congr fun inner hmem => hagree.2 _ (mem_readsAfter.2 ⟨a, hrun, hmem⟩)
  · intro read inner error hmem herror
    rcases List.mem_append.1 hmem with hmem | hmem
    · rw [h.fails hmem herror]
      rfl
    · obtain ⟨a, hrun, hmem⟩ := mem_readsAfter.1 hmem
      rw [hrun]
      exact (hf a).fails hmem herror

/-- What is done with the result alone reads nothing more. -/
theorem andThen (h : Asks run reads) (f : α → Except Error β) :
    Asks (fun read => (run read).bind f) reads := by
  constructor
  · intro read read' hagree
    rw [h.congr hagree]
  · intro read inner error hmem herror
    rw [h.fails hmem herror]
    rfl

end Asks

theorem Fraction.side_asks (quote text : Text) :
    Asks (fun read => side read quote text) fun _ => [text] := (Asks.ask text).andThen _

theorem Fraction.value_asks (fraction : Fraction) (quote : Text) :
    Asks (fun read => fraction.value read quote) fun read => fraction.reads read quote :=
  (side_asks quote fraction.numerator).bind fun _ =>
    (side_asks quote fraction.denominator).andThen _

namespace Expr

variable {settings : Settings} {source : Text}

theorem operandText_asks {e : Expr}
    (h : Asks (fun read => e.eval settings read source) fun read => e.reads settings read source) :
    Asks (fun read => operandText source (e.eval settings read source) e)
      fun read => e.reads settings read source := by
  cases e with
  | literal value span => exact .const _
  | _ => exact h.andThen _

theorem eval_asks (e : Expr) :
    Asks (fun read => e.eval settings read source) fun read => e.reads settings read source := by
  induction e with
  | literal value span => exact .const _
  | group inner span ih => exact ih
  | negate operand span ih => exact ih.andThen _
  | binary op left right span ihl ihr =>
    refine ihl.bind fun x => ?_
    by_cases hop : op = .pow
    · simp only [if_pos hop]
      cases Fraction.ofExponent? source right with
      | some fraction => exact (fraction.value_asks _).andThen _
      | none => exact ihr.andThen _
    · simp only [if_neg hop]
      exact ihr.andThen _
  | adjacent left right span ihl ihr =>
    exact (operandText_asks ihl).bind fun first => (operandText_asks ihr).bind fun second => .ask _

end Expr

/-! ### What is read -/

namespace Expr

variable {settings : Settings} {read : Reader} {source : Text}

/-- The text of an operand, a literal as it stands there or a value as it is written. -/
theorem isWritten_of_mem_operandText {e : Expr} {value : Except Error Float} {text : Text}
    (hplaced : e.Placed source) (h : operandText source value e = .ok text) :
    ∀ c ∈ text, isWritten c := by
  cases e with
  | literal x span =>
    cases h
    obtain ⟨run, y, hwrites, hmarks⟩ := hplaced
    have hrun : ∀ c ∈ run, isWritten c := fun c hc => isWritten_of_isNumeric (hwrites.1 c hc)
    rcases hmarks with ⟨hmarks, _⟩ | ⟨sign, hmarks, _⟩
    · rw [hmarks.text_eq]
      exact hrun
    · rw [hmarks.text_eq]
      exact List.forall_mem_cons.2 ⟨by cases sign <;> rfl, hrun⟩
  | _ =>
    obtain ⟨x, _, heq⟩ := bind_eq_ok.1 h
    cases heq
    exact Numeral.isWritten_of_mem_write x

/-- The text that two neighbours make up. -/
def joinedText (settings : Settings) (read : Reader) (source : Text) (left right : Expr) :
    Except Error Text := do
  let first ← operandText source (left.eval settings read source) left
  let second ← operandText source (right.eval settings read source) right
  return Text.normalizeSigns (first ++ second)

/-- Two neighbours make up a text of what numbers are written with. -/
theorem not_mem_joinedText {c : Char} (hc : isWritten c = false) {left right : Expr}
    {joined : Text} (hleft : left.Placed source) (hright : right.Placed source)
    (h : joinedText settings read source left right = .ok joined) : c ∉ joined := by
  obtain ⟨first, hfirst, h⟩ := bind_eq_ok.1 h
  obtain ⟨second, hsecond, h⟩ := bind_eq_ok.1 h
  cases h
  have hsign : Sign.ofChar? c = none := by
    simp only [isWritten, Bool.or_eq_false_iff, Option.isSome_eq_false_iff,
      Option.isNone_iff_eq_none] at hc
    exact hc.1.2
  rw [← List.count_eq_zero, Text.count_normalizeSigns hsign, List.count_eq_zero,
    List.mem_append]
  rintro (hmem | hmem)
  · simp [isWritten_of_mem_operandText hleft hfirst c hmem] at hc
  · simp [isWritten_of_mem_operandText hright hsecond c hmem] at hc

theorem count_opening_joinedText {left right : Expr} {joined : Text} (hleft : left.Placed source)
    (hright : right.Placed source) (h : joinedText settings read source left right = .ok joined) :
    joined.count '(' = 0 := List.count_eq_zero.2 (not_mem_joinedText rfl hleft hright h)

/-- What is read is a side of a fraction, or the text of two neighbours. -/
theorem forall_mem_reads {P : Text → Prop} {e : Expr}
    (hfraction : ∀ base exponent span, .binary .pow base exponent span ∈ e.nodes →
      ∀ fraction, Fraction.ofExponent? source exponent = some fraction →
        P fraction.numerator ∧ P fraction.denominator)
    (hjoined : ∀ left right span, .adjacent left right span ∈ e.nodes →
      ∀ joined, joinedText settings read source left right = .ok joined → P joined) :
    ∀ inner ∈ e.reads settings read source, P inner := by
  intro inner h
  induction e with
  | literal => cases h
  | group operand span ih | negate operand span ih =>
    exact ih (fun l r place hmem => hfraction l r place (List.mem_cons_of_mem _ hmem))
      (fun l r place hmem => hjoined l r place (List.mem_cons_of_mem _ hmem)) h
  | binary op left right span ihl ihr =>
    replace ihl := ihl (fun l r place hmem => hfraction l r place (by simp [nodes, hmem]))
      fun l r place hmem => hjoined l r place (by simp [nodes, hmem])
    replace ihr := ihr (fun l r place hmem => hfraction l r place (by simp [nodes, hmem]))
      fun l r place hmem => hjoined l r place (by simp [nodes, hmem])
    rcases List.mem_append.1 h with h | h
    · exact ihl h
    · obtain ⟨x, _, h⟩ := mem_readsAfter.1 h
      split at h
      · next hop =>
        split at h
        · next fraction hsome =>
          have hpow : binary .pow left right span ∈ (binary op left right span).nodes := by
            rw [hop]
            exact self_mem_nodes _
          obtain ⟨hnumerator, hdenominator⟩ := hfraction left right span hpow fraction hsome
          rcases List.mem_cons.1 h with rfl | h
          · exact hnumerator
          · obtain ⟨_, _, h⟩ := mem_readsAfter.1 h
            rwa [List.mem_singleton.1 h]
        · exact ihr h
      · exact ihr h
  | adjacent left right span ihl ihr =>
    replace ihl := ihl (fun l r place hmem => hfraction l r place (by simp [nodes, hmem]))
      fun l r place hmem => hjoined l r place (by simp [nodes, hmem])
    replace ihr := ihr (fun l r place hmem => hfraction l r place (by simp [nodes, hmem]))
      fun l r place hmem => hjoined l r place (by simp [nodes, hmem])
    rcases List.mem_append.1 h with h | h
    · exact ihl h
    · obtain ⟨first, hfirst, h⟩ := mem_readsAfter.1 h
      rcases List.mem_append.1 h with h | h
      · exact ihr h
      · obtain ⟨second, hsecond, h⟩ := mem_readsAfter.1 h
        refine hjoined left right span (self_mem_nodes _) inner ?_
        rw [List.mem_singleton.1 h, joinedText, hfirst, hsecond]
        rfl

end Expr

/-! ### Evaluation ends -/

/-- What the evaluator is at work on: a text, or an expression whose spans refer to a text. -/
inductive Task where
  | text (source : Text)
  | tree (e : Expr) (source : Text)

/-- The parts of an expression that have a value of their own. -/
def Expr.operands : Expr → List Expr
  | literal _ _ => []
  | group inner _ => [inner]
  | negate operand _ => [operand]
  | binary _ left right _ | adjacent left right _ => [left, right]

/-- The first task comes up at work on the second. -/
inductive Starts (settings : Settings) (read : Reader) : Task → Task → Prop
  | parsed {source e} : parseText settings.toLimits source = .ok e →
    Starts settings read (.tree e source) (.text source)
  | operand {source e operand} : operand ∈ e.operands →
    Starts settings read (.tree operand source) (.tree e source)
  | reread {source e inner} : inner ∈ e.reads settings read source →
    Starts settings read (.text inner) (.tree e source)

/-- The value of a text, where all that its expression writes is read by `read`. -/
def evalTextWith (settings : Settings) (read : Reader) (source : Text) : Except Error Float :=
  match parseText settings.toLimits source with
  | .error error => .error (.parse error)
  | .ok e => e.eval settings read source

section

variable {settings : Settings} {read : Reader} {source : Text} {e : Expr}

/-- In an expression that was parsed, every node reads less than the text has. -/
theorem count_opening_lt_of_mem_reads (h : parseText settings.toLimits source = .ok e) {node : Expr}
    (hnode : node ∈ e.nodes) :
    ∀ inner ∈ node.reads settings read source, inner.count '(' < source.count '(' := by
  have hplaced := (places_of_parseText h).nodes
  refine Expr.forall_mem_reads (fun base exponent span hmem fraction hsome => ?_)
    fun left right span hmem joined hjoined => ?_
  · have := Fraction.count_lt_of_ofExponent? hsome
    omega
  · have hadjacent := Expr.mem_nodes_trans hnode hmem
    obtain ⟨hleft, hright⟩ := Expr.mem_nodes_of_adjacent hadjacent
    rw [Expr.count_opening_joinedText (hplaced _ hleft) (hplaced _ hright) hjoined]
    exact opening_of_adjacent h hadjacent

/-- What holds of a text if it holds of all that its expression gives to be read holds of every
text. -/
theorem reads_induction (settings : Settings) (read : Reader) {motive : Text → Prop}
    (ind : ∀ source, (∀ e, parseText settings.toLimits source = .ok e →
      ∀ node ∈ e.nodes, ∀ inner ∈ node.reads settings read source, motive inner) → motive source)
    (source : Text) : motive source := by
  induction hcount : source.count '(' using Nat.strongRecOn generalizing source with
  | ind n ih =>
    refine ind source fun e h node hnode inner hmem => ih _ ?_ inner rfl
    rw [← hcount]
    exact count_opening_lt_of_mem_reads h hnode inner hmem

theorem acc_tree (h : ∀ node ∈ e.nodes, ∀ inner ∈ node.reads settings read source,
    Acc (Starts settings read) (.text inner)) : Acc (Starts settings read) (.tree e source) := by
  induction e with
  | literal value span =>
    refine ⟨_, fun task hstarts => ?_⟩
    cases hstarts with
    | operand hmem => cases hmem
    | reread hmem => cases hmem
  | group inner span ih | negate inner span ih =>
    refine ⟨_, fun task hstarts => ?_⟩
    cases hstarts with
    | operand hmem =>
      obtain rfl := List.mem_singleton.1 hmem
      exact ih fun node hnode => h node (List.mem_cons_of_mem _ hnode)
    | reread hmem => exact h _ (Expr.self_mem_nodes _) _ hmem
  | binary op left right span ihl ihr | adjacent left right span ihl ihr =>
    refine ⟨_, fun task hstarts => ?_⟩
    cases hstarts with
    | operand hmem =>
      rcases List.mem_cons.1 hmem with rfl | hmem
      · exact ihl fun node hnode => h node (by simp [Expr.nodes, hnode])
      · obtain rfl := List.mem_singleton.1 hmem
        exact ihr fun node hnode => h node (by simp [Expr.nodes, hnode])
    | reread hmem => exact h _ (Expr.self_mem_nodes _) _ hmem

theorem acc_text (source : Text) : Acc (Starts settings read) (.text source) := by
  induction source using reads_induction settings read with
  | ind source ih =>
    refine ⟨_, fun task hstarts => ?_⟩
    cases hstarts with
    | parsed h => exact acc_tree (ih _ h)

theorem evalTextWith_congr {read' : Reader}
    (h : ∀ inner : Text, inner.count '(' < source.count '(' → read inner = read' inner) :
    evalTextWith settings read source = evalTextWith settings read' source := by
  unfold evalTextWith
  split
  · rfl
  · next e he =>
    exact e.eval_asks.congr fun inner hmem =>
      h inner (count_opening_lt_of_mem_reads he e.self_mem_nodes inner hmem)

/-- The guard of `evalText` never strikes. -/
theorem evalText_eq (settings : Settings) (source : Text) :
    evalText settings source = evalTextWith settings (evalText settings) source := by
  rw [evalText]
  exact evalTextWith_congr fun inner hlt => if_pos hlt

/-- A text without a value is no expression, or its expression has none. -/
theorem evalText_error {error : Error} (h : evalText settings source = .error error) :
    (∃ e, parseText settings.toLimits source = .ok e ∧ e.value settings source = .error error) ∨
      ∃ error', parseText settings.toLimits source = .error error' ∧ error = .parse error' := by
  rw [evalText_eq, evalTextWith] at h
  cases hparse : parseText settings.toLimits source with
  | error error' =>
    rw [hparse] at h
    cases h
    exact .inr ⟨error', rfl, rfl⟩
  | ok e =>
    rw [hparse] at h
    exact .inl ⟨e, rfl, h⟩

/-- No other reader goes by its own answers. -/
theorem eq_evalText (h : ∀ source, read source = evalTextWith settings read source) :
    read = evalText settings := by
  funext source
  induction hcount : source.count '(' using Nat.strongRecOn generalizing source with
  | ind n ih =>
    rw [h, evalText_eq]
    exact evalTextWith_congr fun inner hlt => ih _ (hcount ▸ hlt) inner rfl

end

/-- Evaluation ends for every text, and for every expression whatever text its spans refer to. On
the way it reads no other texts than listed, which have fewer parentheses where the expression was
parsed, so no task comes up forever; `evalText` is the one reader that goes by its own answers. -/
theorem evaluation_terminates (settings : Settings) :
    (∀ (e : Expr) (source : Text), Asks (fun read => e.eval settings read source)
      fun read => e.reads settings read source) ∧
    (∀ (source : Text) (e : Expr) (read : Reader), parseText settings.toLimits source = .ok e →
      (∀ inner ∈ e.reads settings read source, inner.count '(' < source.count '(') ∧
      (∀ exponent fraction, Fraction.ofExponent? source exponent = some fraction →
        fraction.numerator.count '(' + fraction.denominator.count '(' < source.count '(') ∧
      ∀ left right span, .adjacent left right span ∈ e.nodes → 0 < source.count '(' ∧
        ∀ joined, Expr.joinedText settings read source left right = .ok joined →
          joined.count '(' = 0) ∧
    (∀ read : Reader, WellFounded (Starts settings read)) ∧
    ∀ read : Reader, (∀ source, read source = evalTextWith settings read source) ↔
      read = evalText settings := by
  refine ⟨fun e source => e.eval_asks, fun source e read h => ⟨?_, ?_, ?_⟩, ?_, fun read => ?_⟩
  · exact count_opening_lt_of_mem_reads h e.self_mem_nodes
  · intro exponent fraction hsome
    exact Fraction.count_lt_of_ofExponent? hsome
  · intro left right span hmem
    have hplaced := (places_of_parseText h).nodes
    obtain ⟨hleft, hright⟩ := Expr.mem_nodes_of_adjacent hmem
    exact ⟨opening_of_adjacent h hmem, fun joined hjoined =>
      Expr.count_opening_joinedText (hplaced _ hleft) (hplaced _ hright) hjoined⟩
  · intro read
    refine ⟨fun task => ?_⟩
    cases task with
    | text source => exact acc_text source
    | tree e source => exact acc_tree fun _ _ inner _ => acc_text inner
  · constructor
    · exact eq_evalText
    · rintro rfl
      exact evalText_eq settings

/-- Two neighbours are read as one text, and both sides of the exponent. -/
theorem evaluation_terminates_fraction : ∃ e, parseText {} "(1)2^(4/(2))".toList = .ok e ∧
    e.reads {} (fun _ => .ok 1) "(1)2^(4/(2))".toList =
      ["12".toList, "4".toList, "(2)".toList] ∧
    ∀ inner ∈ e.reads {} (fun _ => .ok 1) "(1)2^(4/(2))".toList, inner.count '(' < 3 := by
  have h : parseText {} "(1)2^(4/(2))".toList =
      .ok (.join .pow (.beside (.group (.literal 1 ⟨1, 2⟩) ⟨0, 3⟩) (.literal 2 ⟨3, 4⟩))
        (.group (.join .div (.literal 4 ⟨6, 7⟩) (.group (.literal 2 ⟨9, 10⟩) ⟨8, 11⟩))
          ⟨5, 12⟩)) := by
    decide +kernel
  exact ⟨_, h, by decide +kernel, ((evaluation_terminates {}).2.1 _ _ _ h).1⟩

end Calculator
