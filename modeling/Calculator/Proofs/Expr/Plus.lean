import Calculator.Proofs.Expr.Grouping
import Calculator.Proofs.Expr.Sides
import Calculator.Proofs.Grammar.Plus

/-! Unary pluses count for nothing. Main statement: a text that has a value has the same value
without a plus that stands in front of an operand, whatever is read again on the way. -/

namespace Calculator

open Grammar (bind_eq_ok)

/-! ### Texts without a plus -/

namespace Text

/-- The texts are the same, or the second one is the first one without a unary plus. -/
def DropsPlus (text text' : Text) : Prop :=
  text' = text ∨ ∃ front back : Text, text = front ++ '+' :: back ∧ text' = front ++ back ∧
    front.ExpectsOperand

theorem ExpectsOperand.of_append {a b : Text} (h : (a ++ b).ExpectsOperand) :
    b.ExpectsOperand := by
  intro c hc
  exact h c (by simp [Option.mem_def.1 hc])

/-- A sign stays in front of a number, whatever is joined behind it. -/
theorem normalizeSigns_plus {c : Char} (hc : Sign.ofChar? c = none) (text : Text) :
    normalizeSigns ('+' :: c :: text) = '+' :: normalizeSigns (c :: text) := by
  have hjoin (text : Text) : joinSigns ('+' :: c :: text) = '+' :: joinSigns (c :: text) := by
    simp [joinSigns, hc]
  generalize htext : c :: text = list
  fun_induction normalizeSigns list generalizing text with
  | case1 list hlt ih =>
    subst htext
    rw [normalizeSigns, hjoin, if_pos (by simpa using hlt)]
    rw [joinSigns_cons hc] at ih ⊢
    exact ih _ rfl
  | case2 list hlt =>
    subst htext
    rw [normalizeSigns, hjoin, if_neg (by simpa using hlt)]

end Text

/-- A piece that is marked is marked afterwards, without the plus if it was a part of it. -/
theorem Span.Marks.without {span : Span} {front back piece : Text}
    (h : span.Marks (front ++ '+' :: back) piece) :
    (span.without front.byteLength).Marks (front ++ back) piece ∨
      ∃ before a b, front = before ++ a ∧ piece = a ++ '+' :: b ∧
        (span.without front.byteLength).Marks (front ++ back) (a ++ b) := by
  obtain ⟨⟨before, after, hsource, hstart⟩, hstop⟩ := h
  obtain ⟨start, stop⟩ := span
  obtain rfl : start = before.byteLength := hstart
  obtain rfl : stop = before.byteLength + piece.byteLength := hstop
  rw [List.append_assoc] at hsource
  have hplus : '+'.utf8Size = 1 := rfl
  rcases split_of_append_eq hsource.symm with ⟨rest, rfl, rfl⟩ | ⟨rest, hrest, rfl⟩
  · refine .inl ⟨⟨front ++ rest, after, by simp, ?_⟩, ?_⟩
    all_goals
      simp only [Span.without, Span.pull, Text.byteLength_append, Text.byteLength_cons, hplus]
      repeat rw [if_neg (by omega)]
      omega
  · rcases split_of_append_eq hrest with ⟨rest', rfl, rfl⟩ | ⟨rest', rfl, rfl⟩
    · refine .inr ⟨before, rest, rest', rfl, rfl, ⟨before, after, by simp, ?_⟩, ?_⟩
      all_goals
        simp only [Span.without, Span.pull, Text.byteLength_append, Text.byteLength_cons, hplus]
        rw [if_pos (Nat.le_add_right ..)]
      rw [if_neg (by omega)]
      omega
    · refine .inl ⟨⟨before, rest' ++ back, by simp, ?_⟩, ?_⟩
      all_goals
        simp only [Span.without, Span.pull, Text.byteLength_append]
        repeat rw [if_pos (by omega)]

namespace Reader

/-- The text keeps its value without a plus. -/
def Spared (read : Reader) (text : Text) : Prop :=
  ∀ text', text.DropsPlus text' → ∀ x, read text = .ok x → read text' = .ok x

/-- Each of the texts keeps its value without a plus. -/
def Spares (read : Reader) (texts : List Text) : Prop := ∀ text ∈ texts, read.Spared text

variable {read : Reader}

theorem spares_cons_iff {text : Text} {texts : List Text} :
    read.Spares (text :: texts) ↔ read.Spared text ∧ read.Spares texts := List.forall_mem_cons

theorem spares_append_iff {a b : List Text} :
    read.Spares (a ++ b) ↔ read.Spares a ∧ read.Spares b := List.forall_mem_append

theorem Spares.after {α : Type} {x : Except Error α} {reads : α → List Text} {a : α}
    (h : read.Spares (readsAfter x reads)) (hx : x = .ok a) : read.Spares (reads a) := by
  rwa [hx] at h

end Reader

/-! ### The sides of a fraction -/

namespace Fraction

theorem splitSlash?_plus {depth : Nat} {front back : Text} :
    splitSlash? depth (front ++ '+' :: back) = none ∧ splitSlash? depth (front ++ back) = none ∨
    (∃ a b, splitSlash? depth (front ++ '+' :: back) = some (front ++ '+' :: a, b) ∧
      splitSlash? depth (front ++ back) = some (front ++ a, b)) ∨
    ∃ a b, splitSlash? depth (front ++ '+' :: back) = some (a, b ++ '+' :: back) ∧
      splitSlash? depth (front ++ back) = some (a, b ++ back) ∧ front = a ++ '/' :: b := by
  induction front generalizing depth with
  | nil =>
    rw [List.nil_append, List.nil_append, splitSlash?_cons (by simp)]
    cases hsplit : splitSlash? depth back with
    | none => exact .inl ⟨by simp [depthAfter, hsplit], rfl⟩
    | some sides => exact .inr (.inl ⟨sides.1, sides.2, by simp [depthAfter, hsplit], rfl⟩)
  | cons c front ih =>
    rw [List.cons_append, List.cons_append]
    by_cases hc : c = '/' ∧ depth = 0
    · rw [splitSlash?, splitSlash?, if_pos hc, if_pos hc]
      exact .inr (.inr ⟨[], front, rfl, rfl, by rw [hc.1]; rfl⟩)
    · rw [splitSlash?_cons hc, splitSlash?_cons hc]
      rcases @ih (depthAfter depth c) with ⟨h, h'⟩ | ⟨a, b, h, h'⟩ | ⟨a, b, h, h', rfl⟩
      · exact .inl ⟨by rw [h]; rfl, by rw [h']; rfl⟩
      · exact .inr (.inl ⟨a, b, by rw [h]; rfl, by rw [h']; rfl⟩)
      · exact .inr (.inr ⟨c :: a, b, by rw [h]; rfl, by rw [h']; rfl, rfl⟩)

/-- The two are alike, each side without a plus or as it was. -/
structure DropsPlus (fraction fraction' : Fraction) : Prop where
  numerator : fraction.numerator.DropsPlus fraction'.numerator
  denominator : fraction.denominator.DropsPlus fraction'.denominator
  negated : fraction'.negated = fraction.negated

/-- A group with a plus is a fraction if it is one without. -/
theorem ofGroup?_without_plus {source source' inside inside' : Text} {span span' : Span}
    (h : span.text source = '(' :: (inside ++ [')']))
    (h' : span'.text source' = '(' :: (inside' ++ [')'])) (hplus : inside.DropsPlus inside')
    (negated : Bool) :
    Option.Rel DropsPlus (ofGroup? negated span source) (ofGroup? negated span' source') := by
  rw [ofGroup?, ofGroup?, h, h', inside?_enclosed, inside?_enclosed]
  dsimp only [Option.bind_eq_bind, Option.bind_some]
  rcases hplus with rfl | ⟨front, back, rfl, rfl, hunary⟩
  · cases splitSlash? 0 inside' with
    | none => exact .none
    | some sides => exact .some ⟨.inl rfl, .inl rfl, rfl⟩
  · rcases @splitSlash?_plus 0 front back with ⟨h, h'⟩ | ⟨a, b, h, h'⟩ | ⟨a, b, h, h', rfl⟩
    · rw [h, h']
      exact .none
    · rw [h, h']
      exact .some ⟨.inr ⟨front, a, rfl, rfl, hunary⟩, .inl rfl, rfl⟩
    · rw [h, h']
      rw [List.append_cons] at hunary
      exact .some ⟨.inl rfl, .inr ⟨b, back, rfl, rfl, hunary.of_append⟩, rfl⟩

theorem side_eq_ok {read : Reader} {quote text text' : Text} {n : Int} (hread : read.Spared text)
    (hplus : text.DropsPlus text') (h : side read quote text = .ok n) (quote' : Text) :
    side read quote' text' = .ok n := by
  obtain ⟨x, hx, h⟩ := bind_eq_ok.1 h
  refine bind_eq_ok.2 ⟨x, hread text' hplus x hx, ?_⟩
  cases hwhole : whole? x with
  | none =>
    rw [hwhole] at h
    cases h
  | some m => rwa [hwhole] at h

/-- A fraction keeps its value where the sides keep theirs. -/
theorem DropsPlus.value_eq_ok {read : Reader} {fraction fraction' : Fraction} {quote : Text}
    (h : fraction.DropsPlus fraction') (hread : read.Spares (fraction.reads read quote))
    {ratio : Ratio} (hvalue : fraction.value read quote = .ok ratio) (quote' : Text) :
    fraction'.value read quote' = .ok ratio := by
  obtain ⟨numerator, hnumerator, hvalue⟩ := bind_eq_ok.1 hvalue
  obtain ⟨denominator, hdenominator, hvalue⟩ := bind_eq_ok.1 hvalue
  obtain ⟨hfirst, hafter⟩ := Reader.spares_cons_iff.1 hread
  have hsecond := hafter.after hnumerator
  refine bind_eq_ok.2 ⟨numerator, side_eq_ok hfirst h.numerator hnumerator quote',
    bind_eq_ok.2 ⟨denominator, side_eq_ok (hsecond _ List.mem_cons_self) h.denominator hdenominator
      quote', ?_⟩⟩
  split at hvalue
  · cases hvalue
  · next hzero =>
    rw [if_neg hzero, h.negated]
    split at hvalue
    · exact hvalue
    · cases hvalue

end Fraction

/-! ### Expressions without a plus -/

theorem wholePower_eq_ok {base value x : Float} {quote : Text}
    (h : wholePower base value quote = .ok x) (quote' : Text) :
    wholePower base value quote' = .ok x := by
  unfold wholePower at h ⊢
  split at h
  · exact h
  · split at h
    · next hwhole => rwa [if_pos hwhole]
    · cases h

namespace Expr

variable {f : Span → Span} {source source' : Text} {settings : Settings} {read : Reader}

/-- What evaluation takes from the text at a node is at the mapped place as well, but for a plus. -/
def KeepsText (f : Span → Span) (source source' : Text) : Expr → Prop
  | group _ span => ∃ inside inside' : Text, span.text source = '(' :: (inside ++ [')']) ∧
    (f span).text source' = '(' :: (inside' ++ [')']) ∧ inside.DropsPlus inside'
  | adjacent left right _ =>
    (∀ x span, left = literal x span → ∀ second : Text,
      (Text.normalizeSigns (span.text source ++ second)).DropsPlus
        (Text.normalizeSigns ((f span).text source' ++ second))) ∧
    ∀ x span, right = literal x span → (f span).text source' = span.text source
  | _ => True

theorem ofExponent?_keepsText {exponent : Expr}
    (h : ∀ node ∈ exponent.nodes, node.KeepsText f source source') :
    Option.Rel Fraction.DropsPlus (Fraction.ofExponent? source exponent)
      (Fraction.ofExponent? source' (exponent.mapSpan f)) := by
  cases exponent with
  | group inner span =>
    obtain ⟨_, _, htext, htext', hplus⟩ := h _ List.mem_cons_self
    exact Fraction.ofGroup?_without_plus htext htext' hplus false
  | negate operand span =>
    cases operand with
    | group inner place =>
      obtain ⟨_, _, htext, htext', hplus⟩ := h (group inner place) (by simp [nodes])
      exact Fraction.ofGroup?_without_plus htext htext' hplus true
    | _ => exact .none
  | _ => exact .none

/-- An operand that keeps its value is written as it was, if it is no literal. -/
theorem literal_or_operandText {e : Expr} {value value' : Except Error Float} {text : Text}
    (hvalue : ∀ x, value = .ok x → value' = .ok x) (h : operandText source value e = .ok text) :
    (∃ x span, e = literal x span ∧ text = span.text source) ∨
      operandText source' value' (e.mapSpan f) = .ok text := by
  cases e with
  | literal x span =>
    cases h
    exact .inl ⟨x, span, rfl, rfl⟩
  | _ =>
    obtain ⟨x, hx, h⟩ := bind_eq_ok.1 h
    exact .inr (bind_eq_ok.2 ⟨x, hvalue x hx, h⟩)

/-- An expression keeps its value if what it reads does. -/
theorem eval_keepsText {e : Expr} {x : Float}
    (hnodes : ∀ node ∈ e.nodes, node.KeepsText f source source')
    (hread : read.Spares (e.reads settings read source))
    (h : e.eval settings read source = .ok x) :
    (e.mapSpan f).eval settings read source' = .ok x := by
  induction e generalizing x with
  | literal value span => exact h
  | group inner span ih =>
    exact ih (fun node hmem => hnodes node (List.mem_cons_of_mem _ hmem)) hread h
  | negate operand span ih =>
    obtain ⟨y, hy, h⟩ := bind_eq_ok.1 h
    exact bind_eq_ok.2
      ⟨y, ih (fun node hmem => hnodes node (List.mem_cons_of_mem _ hmem)) hread hy, h⟩
  | binary op left right span ihl ihr =>
    simp only [nodes, List.forall_mem_cons, List.forall_mem_append] at hnodes
    obtain ⟨_, hleft, hright⟩ := hnodes
    obtain ⟨hreadl, hafter⟩ := Reader.spares_append_iff.1 hread
    obtain ⟨y, hy, h⟩ := bind_eq_ok.1 h
    have hreadr := hafter.after hy
    refine bind_eq_ok.2 ⟨y, ihl hleft hreadl hy, ?_⟩
    by_cases hop : op = .pow
    · simp only [if_pos hop] at h hreadr ⊢
      have hfraction := ofExponent?_keepsText hright
      generalize Fraction.ofExponent? source right = exponent at hfraction h hreadr
      generalize Fraction.ofExponent? source' (right.mapSpan f) = exponent' at hfraction ⊢
      cases hfraction with
      | some hplus =>
        obtain ⟨ratio, hratio, h⟩ := bind_eq_ok.1 h
        exact bind_eq_ok.2 ⟨ratio, hplus.value_eq_ok hreadr hratio _, h⟩
      | none =>
        obtain ⟨z, hz, h⟩ := bind_eq_ok.1 h
        exact bind_eq_ok.2 ⟨z, ihr hright hreadr hz, wholePower_eq_ok h _⟩
    · simp only [if_neg hop] at h hreadr ⊢
      obtain ⟨z, hz, h⟩ := bind_eq_ok.1 h
      exact bind_eq_ok.2 ⟨z, ihr hright hreadr hz, h⟩
  | adjacent left right span ihl ihr =>
    simp only [nodes, List.forall_mem_cons, List.forall_mem_append] at hnodes
    obtain ⟨⟨hliteral, hliteral'⟩, hleft, hright⟩ := hnodes
    obtain ⟨hreadl, hafter⟩ := Reader.spares_append_iff.1 hread
    obtain ⟨first, hfirst, h⟩ := bind_eq_ok.1 h
    obtain ⟨second, hsecond, h⟩ := bind_eq_ok.1 h
    obtain ⟨hreadr, hafter⟩ := Reader.spares_append_iff.1 (hafter.after hfirst)
    have hjoined := hafter.after hsecond _ List.mem_cons_self
    have hsecond' :
        operandText source' ((right.mapSpan f).eval settings read source') (right.mapSpan f) =
          .ok second := by
      rcases literal_or_operandText (fun _ => ihr hright hreadr) hsecond with
        ⟨y, place, rfl, rfl⟩ | hsecond
      · exact congrArg Except.ok (hliteral' y place rfl)
      · exact hsecond
    rcases literal_or_operandText (fun _ => ihl hleft hreadl) hfirst with
      ⟨y, place, rfl, rfl⟩ | hfirst'
    · exact bind_eq_ok.2 ⟨_, rfl, bind_eq_ok.2 ⟨second, hsecond',
        hjoined _ (hliteral y place rfl second) x h⟩⟩
    · exact bind_eq_ok.2 ⟨first, hfirst', bind_eq_ok.2 ⟨second, hsecond', h⟩⟩

end Expr

/-! ### Where the plus was -/

theorem Sign.ofChar?_of_isNumeric {c : Char} (h : isNumeric c) : ofChar? c = none := by
  cases hsign : ofChar? c with
  | none => rfl
  | some sign =>
    rw [ofChar?_eq_some_iff.1 hsign] at h
    cases sign <;> cases h

/-- A number after another operand is one of the tokens, as only the first can have a sign. -/
theorem Grammar.Phrase.mem_tail_of_adjacent {room : Nat} {form : Form} {tokens : List Lexeme}
    {e left : Expr} {value : Float} {place span : Span} (h : Phrase room form tokens e)
    (hmem : .adjacent left (.literal value place) span ∈ e.nodes) :
    ⟨.number value, place⟩ ∈ tokens.tail := by
  induction h with
  | number => simp [Expr.nodes] at hmem
  | group _ ih =>
    rcases List.mem_cons.1 hmem with heq | hmem
    · cases heq
    · exact List.mem_append_left _ (List.mem_of_mem_tail (ih hmem))
  | single _ ih | unraised _ ih | unsigned _ ih | tighter _ ih => exact ih hmem
  | beside hl hr ihl ihr =>
    rw [List.tail_append_of_ne_nil hl.ne_nil, List.mem_append]
    rcases List.mem_cons.1 hmem with heq | hmem
    · cases heq
      cases hr
      exact .inr List.mem_cons_self
    · exact (List.mem_append.1 hmem).imp ihl fun hmem => List.mem_of_mem_tail (ihr hmem)
  | raised hl _ ihl ihr | join hl _ ihl ihr =>
    rw [List.tail_append_of_ne_nil hl.ne_nil, List.mem_append]
    rcases List.mem_cons.1 hmem with heq | hmem
    · cases heq
    · exact (List.mem_append.1 hmem).imp ihl fun hmem =>
        List.mem_cons_of_mem _ (List.mem_of_mem_tail (ihr hmem))
  | fused _ _ ih => exact List.mem_cons_of_mem _ (ih hmem)
  | signed _ _ _ ih =>
    rcases nodes_signed _ _ _ _ hmem with hmem | heq
    · exact List.mem_of_mem_tail (ih hmem)
    · cases heq

/-- A token marks the piece that writes it. -/
theorem Tiles.exists_marks {source : Text} {tokens : List Lexeme} (h : Tiles 0 source tokens)
    {t : Lexeme} (ht : t ∈ tokens) : ∃ piece, t.token.Writes piece ∧ t.span.Marks source piece := by
  obtain ⟨before, after, rfl⟩ := List.append_of_mem ht
  obtain ⟨a, b, rfl, _, hb⟩ := h.split
  rw [Nat.zero_add] at hb
  cases hb with
  | @cons _ token piece text _ hpiece hrest => exact ⟨piece, hpiece, ⟨a, text, by simp, rfl⟩, rfl⟩

/-- So it stands in the text without a sign. -/
theorem exists_marks_of_adjacent {limits : Limits} {source : Text} {e left : Expr} {value : Float}
    {place span : Span} (h : parseText limits source = .ok e)
    (hmem : .adjacent left (.literal value place) span ∈ e.nodes) :
    ∃ run, (Token.number value).Writes run ∧ place.Marks source run := by
  obtain ⟨tokens, hscan, hparse⟩ := bind_eq_ok.1 h
  have hnumber := (Grammar.phrase_of_parse hparse).mem_tail_of_adjacent hmem
  exact (scanFrom_eq_ok_iff.1 hscan).1.exists_marks (List.mem_of_mem_tail hnumber)

section

variable {limits : Limits} {front back : Text} {e : Expr}

/-- In an expression with a unary plus in its text, each node keeps its text, but for the plus. -/
theorem keepsText_of_parseText (hunary : front.ExpectsOperand)
    (h : parseText limits (front ++ '+' :: back) = .ok e) : ∀ node ∈ e.nodes,
      node.KeepsText (Span.without front.byteLength) (front ++ '+' :: back) (front ++ back) := by
  have hplaced := (places_of_parseText h).nodes
  -- no number has the plus in it
  have hrun {run : Text} {span : Span} (hrun : ∀ c ∈ run, isNumeric c)
      (hmarks : span.Marks (front ++ '+' :: back) run) :
      (span.without front.byteLength).text (front ++ back) = run := by
    rcases hmarks.without with hmarks' | ⟨_, a, b, _, rfl, _⟩
    · exact hmarks'.text_eq
    · cases hrun '+' (by simp)
  intro node hmem
  cases node with
  | group inner span =>
    obtain ⟨⟨inside, hmarks⟩, _⟩ := hplaced _ hmem
    rcases hmarks.without with hmarks' | ⟨before, a, b, rfl, hpiece, hmarks'⟩
    · exact ⟨inside, inside, hmarks.text_eq, hmarks'.text_eq, .inl rfl⟩
    · cases a with
      | nil => cases hpiece
      | cons c a =>
        obtain ⟨rfl, hinside⟩ := List.cons.inj hpiece
        rcases split_of_append_eq hinside with ⟨rest, rfl, rfl⟩ | ⟨rest, heq, _⟩
        · rw [List.append_cons] at hunary
          refine ⟨_, a ++ rest, hmarks.text_eq, ?_, .inr ⟨a, rest, rfl, rfl, hunary.of_append⟩⟩
          simpa using hmarks'.text_eq
        · cases (List.append_eq_singleton_iff.1 heq.symm).resolve_left (by simp) |>.2
  | adjacent left right span =>
    obtain ⟨hleft, hright⟩ := Expr.mem_nodes_of_adjacent hmem
    constructor
    · rintro x place rfl second
      obtain ⟨run, y, hwrites, ⟨hmarks, _⟩ | ⟨sign, hmarks, _⟩⟩ := hplaced _ hleft
      · rw [hmarks.text_eq, hrun hwrites.1 hmarks]
        exact .inl rfl
      · rcases hmarks.without with hmarks' | ⟨_, a, b, _, hpiece, hmarks'⟩
        · rw [hmarks.text_eq, hmarks'.text_eq]
          exact .inl rfl
        · cases a with
          | nil =>
            -- the plus is the sign of the number
            obtain ⟨hsign, rfl⟩ := List.cons.inj hpiece
            obtain ⟨c, run, rfl⟩ := List.exists_cons_of_ne_nil hwrites.ne_nil
            have hc := Sign.ofChar?_of_isNumeric (hwrites.1 c List.mem_cons_self)
            rw [hmarks.text_eq, hmarks'.text_eq, hsign]
            exact .inr ⟨[], _, Text.normalizeSigns_plus hc _, rfl, nofun⟩
          | cons c a =>
            obtain ⟨_, rfl⟩ := List.cons.inj hpiece
            cases hwrites.1 '+' (by simp)
    · rintro x place rfl
      obtain ⟨run, hwrites, hmarks⟩ := exists_marks_of_adjacent h hmem
      rw [hmarks.text_eq, hrun hwrites.1 hmarks]
  | _ => trivial

end

/-- A text with a value has the same value without a plus at its start, after an opening
parenthesis or after an operator. -/
theorem evalText_without_plus {settings : Settings} {front back : Text} {x : Float}
    (hunary : front.ExpectsOperand) (h : evalText settings (front ++ '+' :: back) = .ok x) :
    evalText settings (front ++ back) = .ok x := by
  generalize hsource : front ++ '+' :: back = source at h
  induction hcount : source.count '(' using Nat.strongRecOn generalizing source front back x with
  | ind n ih =>
    subst hsource hcount
    obtain ⟨e, hparse⟩ := @parseText_of_evalText settings (front ++ '+' :: back) (by simp [h])
    rw [evalText_of_parseText hparse] at h
    rw [evalText_of_parseText (parseText_without_plus hunary hparse)]
    refine Expr.eval_keepsText (keepsText_of_parseText hunary hparse) ?_ h
    rintro inner hmem _ (rfl | ⟨front', back', rfl, rfl, hunary'⟩) y hy
    · exact hy
    · have hlt := count_opening_lt_of_mem_reads hparse e.self_mem_nodes _ hmem
      exact ih _ hlt hunary' _ rfl hy rfl

/-- A plus of a number that is joined to a group, one in an exponent and one in the denominator
there. -/
theorem evalText_without_plus_points :
    evalText {} "+2(3)^+(4/+2)".toList = .ok 529 ∧ evalText {} "2(3)^+(4/+2)".toList = .ok 529 ∧
      evalText {} "+2(3)^(4/+2)".toList = .ok 529 ∧ evalText {} "+2(3)^+(4/2)".toList = .ok 529 := by
  have h : evalText {} "+2(3)^+(4/+2)".toList = .ok 529 := by decide +kernel
  refine ⟨h, ?_, ?_, ?_⟩
  · exact @evalText_without_plus {} [] _ _ (by decide) h
  · exact @evalText_without_plus {} "+2(3)^".toList _ _ (by decide) h
  · exact @evalText_without_plus {} "+2(3)^+(4/".toList _ _ (by decide) h

end Calculator
