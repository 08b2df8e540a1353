import Mathlib.Control.Monad.Basic
import Calculator.Proofs.Grammar.Phrase
import Calculator.Proofs.Token.Cut

/-! Expressions by resolution: a token list is split at the rightmost of its operators that bind
loosest, and both sides are resolved alike. Main statement: the parser makes of a list what
resolution makes of it. -/

namespace Calculator.Grammar

/-- What comes after `before` lies outside all parentheses. -/
def IsOutside (before : List Lexeme) : Prop := closings before = openings before

/-- The token `t` after `before` is `op`, outside all parentheses and between operands. A sign
stands between operands when one ends right before it, any other operator always. -/
def IsBinary (op : BinaryOp) (before : List Lexeme) (t : Lexeme) : Prop :=
  IsOutside before ∧ t.token = .operator op ∧ (t.token.sign?.isSome → endsOperand before)

instance (before : List Lexeme) : Decidable (IsOutside before) :=
  inferInstanceAs (Decidable (_ = _))

instance (op : BinaryOp) (before : List Lexeme) (t : Lexeme) : Decidable (IsBinary op before t) :=
  inferInstanceAs (Decidable (_ ∧ _))

/-- The rightmost cut at the operator, where it stands between operands. -/
def rightmostCut? (op : BinaryOp) (tokens : List Lexeme) : Option Cut :=
  lastCut? (fun c => IsBinary op c.before c.lexeme) tokens

/-- The rightmost cut at an operator of the loosest binding, powers apart. -/
def loosestCut? (tokens : List Lexeme) : Option (BinaryOp × Cut) :=
  additive.findSome? fun op => (rightmostCut? op tokens).map (op, ·)

/-- The first cut at a power. -/
def powerCut? (tokens : List Lexeme) : Option Cut :=
  firstCut? (fun c => IsBinary .pow c.before c.lexeme) tokens

/-- The first cut at a closing parenthesis that nothing in the list opens. -/
def closingCut? (tokens : List Lexeme) : Option Cut :=
  firstCut? (fun c => IsOutside c.before ∧ c.lexeme.token = .closing) tokens

theorem eq_of_loosestCut? {tokens : List Lexeme} {op : BinaryOp} {c : Cut}
    (h : loosestCut? tokens = some (op, c)) : tokens = c.before ++ c.lexeme :: c.after := by
  obtain ⟨op', _, h⟩ := List.exists_of_findSome?_eq_some h
  obtain ⟨c', hc, heq⟩ := Option.map_eq_some_iff.1 h
  cases heq
  exact eq_of_lastCut? hc

/-- An operand after others without an operator between them, or the first one. -/
def besideAny : Option Expr → Expr → Expr
  | none, e => e
  | some left, e => left.beside e

theorem length_eq_of_cut {tokens : List Lexeme} {c : Cut}
    (h : tokens = c.before ++ c.lexeme :: c.after) :
    tokens.length = c.before.length + c.after.length + 1 := by
  rw [h]
  simp
  omega

mutual

/-- The expression of a token list, found from its operators. -/
def resolve (position : Position) (tokens : List Lexeme) : Option Expr :=
  match _hcut : loosestCut? tokens with
  | some (op, c) => do
    let left ← resolve position c.before
    let right ← resolve .operand c.after
    return .join op left right
  | none =>
    match tokens with
    | [] => none
    | t :: rest =>
      match t.token.sign? with
      | none => resolvePower (t :: rest)
      | some sign =>
        match position, rest with
        | .leading, ⟨.number value, span⟩ :: rest =>
          resolvePower (⟨.number (sign.apply value), t.span.cover span⟩ :: rest)
        | _, rest => do
          let operand ← resolve .operand rest
          return signed t.span operand sign
termination_by (tokens.length, 2)
decreasing_by
  · have := length_eq_of_cut (eq_of_loosestCut? _hcut)
    exact Prod.Lex.left _ _ (by omega)
  · have := length_eq_of_cut (eq_of_loosestCut? _hcut)
    exact Prod.Lex.left _ _ (by omega)
  · exact Prod.Lex.right _ (by decide)
  · exact Prod.Lex.left _ _ (by simp)
  · exact Prod.Lex.left _ _ (by simp)

/-- The same where no operator but powers is left: the first of them has the rest as exponent. -/
def resolvePower (tokens : List Lexeme) : Option Expr :=
  match _hcut : powerCut? tokens with
  | some c => do
    let base ← resolveChain none c.before
    let exponent ← resolve .operand c.after
    return .join .pow base exponent
  | none => resolveChain none tokens
termination_by (tokens.length, 1)
decreasing_by
  · have := length_eq_of_cut (eq_of_firstCut? _hcut)
    exact Prod.Lex.left _ _ (by omega)
  · have := length_eq_of_cut (eq_of_firstCut? _hcut)
    exact Prod.Lex.left _ _ (by omega)
  · exact Prod.Lex.right _ (by decide)

/-- The same where only numbers and groups are left, which come after `left`. -/
def resolveChain (left : Option Expr) : List Lexeme → Option Expr
  | [] => left
  | ⟨.number value, span⟩ :: rest => resolveChain (besideAny left (.literal value span)) rest
  | ⟨.opening, opened⟩ :: rest =>
    match _hcut : closingCut? rest with
    | some c => do
      let inner ← resolve .leading c.before
      resolveChain (besideAny left (.group inner (opened.cover c.lexeme.span))) c.after
    | none => none
  | _ => none
termination_by tokens => (tokens.length, 0)
decreasing_by
  · exact Prod.Lex.left _ _ (by simp)
  · have := length_eq_of_cut (eq_of_firstCut? _hcut)
    exact Prod.Lex.left _ _ (by simp; omega)
  · have := length_eq_of_cut (eq_of_firstCut? _hcut)
    exact Prod.Lex.left _ _ (by simp; omega)

end

/-! ### Lists without an operator -/

/-- The operator is nowhere between operands, but for parentheses. -/
def Free (op : BinaryOp) (tokens : List Lexeme) : Prop :=
  ∀ before t after, tokens = before ++ t :: after → ¬IsBinary op before t

section

variable {op : BinaryOp} {a b before after : List Lexeme} {t : Lexeme}

theorem isOutside_append_iff (ha : Balanced a) : IsOutside (a ++ b) ↔ IsOutside b := by
  have := ha.in_all
  simp only [IsOutside, closings_append, openings_append]
  omega

/-- What is balanced is of no account, if another token stands between. -/
theorem isBinary_append_iff (ha : Balanced a) (hb : b ≠ []) :
    IsBinary op (a ++ b) t ↔ IsBinary op b t := by
  rw [IsBinary, isOutside_append_iff ha, endsOperand_append hb, IsBinary]

theorem not_isBinary_nil_of_sign {sign : Sign} (ht : t.token.sign? = some sign) :
    ¬IsBinary op [] t := by
  rintro ⟨_, _, h⟩
  simpa [endsOperand] using h (by simp [ht])

theorem Free.append (ha : Balanced a) (hfa : Free op a) (hfb : Free op b)
    (hhead : ∀ t ∈ b.head?, t.token ≠ .operator op) : Free op (a ++ b) := by
  intro before t after hsplit hbinary
  rcases List.append_eq_append_iff.1 hsplit with ⟨front, rfl, hb⟩ | ⟨back, ha', hback⟩
  · cases front with
    | nil => exact hhead t (by rw [hb]; rfl) hbinary.2.1
    | cons u front => exact hfb _ _ _ hb ((isBinary_append_iff ha (by simp)).1 hbinary)
  · cases back with
    | nil =>
      refine hhead t ?_ hbinary.2.1
      rw [List.nil_append] at hback
      rw [← hback]
      rfl
    | cons u back =>
      rw [List.cons_append, List.cons.injEq] at hback
      exact hfa _ _ _ (hback.1 ▸ ha') hbinary

/-- An operator in front of a list does not end an operand. -/
theorem IsBinary.of_cons {o : BinaryOp} {u : Lexeme} (ht : t.token = .operator o)
    (h : IsBinary op (t :: b) u) : IsBinary op b u := by
  have hbalanced : Balanced [t] :=
    (closes_other_iff (by simp [ht]) (by simp [ht])).2 (closes_nil_iff.2 rfl)
  cases b with
  | nil =>
    obtain ⟨_, hop, hsign⟩ := h
    refine ⟨rfl, hop, fun hsome => ?_⟩
    obtain ⟨token, span⟩ := t
    obtain rfl : token = .operator o := ht
    simpa [endsOperand] using hsign hsome
  | cons w b => exact (isBinary_append_iff (a := [t]) hbalanced (by simp)).1 h

theorem Free.cons {o : BinaryOp} (ht : t.token = .operator o) (hnil : ¬IsBinary op [] t)
    (h : Free op b) : Free op (t :: b) := by
  intro before u after hsplit hbinary
  cases before with
  | nil =>
    cases hsplit
    exact hnil hbinary
  | cons v before =>
    rw [List.cons_append, List.cons.injEq] at hsplit
    obtain ⟨rfl, hb⟩ := hsplit
    exact h _ _ _ hb (IsBinary.of_cons ht hbinary)

/-- Which number stands in front of a list is of no account. -/
theorem Free.number {value value' : Float} {span span' : Span}
    (h : Free op (⟨.number value, span⟩ :: b)) : Free op (⟨.number value', span'⟩ :: b) := by
  have hbalanced (x : Float) (s : Span) : Balanced [⟨.number x, s⟩] :=
    (closes_other_iff (by simp) (by simp)).2 (closes_nil_iff.2 rfl)
  intro before u after hsplit hbinary
  rcases before with _ | ⟨v, before⟩
  · cases hsplit
    cases hbinary.2.1
  · rw [List.cons_append, List.cons.injEq] at hsplit
    obtain ⟨rfl, hb⟩ := hsplit
    refine h (⟨.number value, span⟩ :: before) u after (by rw [hb, List.cons_append]) ?_
    cases before with
    | nil => exact ⟨rfl, hbinary.2.1, fun _ => rfl⟩
    | cons w before =>
      have h := (isBinary_append_iff (hbalanced value' span') (by simp)).1 hbinary
      exact (isBinary_append_iff (a := [_]) (hbalanced value span) (by simp)).2 h

theorem Free.enclose (ha : Balanced a) (opened closed : Span) :
    Free op (⟨.opening, opened⟩ :: (a ++ [⟨.closing, closed⟩])) := by
  intro before u after hsplit hbinary
  rcases before with _ | ⟨v, before⟩
  · cases hsplit
    cases hbinary.2.1
  · rw [List.cons_append, List.cons.injEq] at hsplit
    obtain ⟨rfl, hb⟩ := hsplit
    rcases List.append_eq_append_iff.1 hb with ⟨front, rfl, hfront⟩ | ⟨back, hback, _⟩
    · rcases List.singleton_eq_append_iff.1 hfront with ⟨_, hu⟩ | ⟨_, hu⟩
      · cases hu
        cases hbinary.2.1
      · cases hu
    · have hmore := ha.never_more _ _ hback
      have houtside := hbinary.1
      simp only [IsOutside, closings_cons, openings_cons] at houtside
      simp at houtside
      omega

end

/-- The operators that a phrase may have between its parts. -/
def Form.operators : Form → List BinaryOp
  | primary | chain => []
  | power => [.pow]
  | level ops _ => .pow :: ops

/-- No other operators than its own stand between the parts of a phrase. -/
theorem Phrase.free {room : Nat} {form : Form} {tokens : List Lexeme} {e : Expr}
    (h : Phrase room form tokens e) {op : BinaryOp} (hop : op ∉ form.operators) :
    Free op tokens := by
  induction h with
  | number =>
    intro before u after hsplit hbinary
    rcases List.singleton_eq_append_iff.1 hsplit with ⟨_, hu⟩ | ⟨_, hu⟩
    · cases hu
      cases hbinary.2.1
    · cases hu
  | group h => exact .enclose h.balanced _ _
  | single _ ih => exact ih hop
  | unraised _ ih => exact ih (by simp [Form.operators])
  | beside hl hr ihl ihr =>
    refine (ihl hop).append hl.balanced (ihr hop) fun t ht heq => ?_
    have := hr.head_beginsOperand (.inl rfl) t ht
    simp [heq, Token.beginsOperand] at this
  | raised hl _ ihl ihr =>
    simp only [Form.operators, List.mem_singleton] at hop
    have hne : Token.operator .pow ≠ .operator op := by simpa using Ne.symm hop
    have hafter := ihr (by simpa [Form.operators] using hop)
    exact (ihl (by simp [Form.operators])).append hl.balanced
      (.cons rfl (fun h => hne h.2.1) hafter) (by rintro _ ⟨⟩; exact hne)
  | unsigned _ ih => exact ih hop
  | fused ht _ ih =>
    obtain ⟨o, ho⟩ := exists_operator_of_sign? ht
    exact .cons ho (not_isBinary_nil_of_sign ht) (ih hop).number
  | signed ht _ _ ih =>
    obtain ⟨o, ho⟩ := exists_operator_of_sign? ht
    exact .cons ho (not_isBinary_nil_of_sign ht) (ih hop)
  | tighter _ ih => exact ih (by simp_all [Form.operators])
  | @join _ o _ _ _ _ _ _ _ hl _ ihl ihr =>
    have hne : Token.operator o ≠ .operator op := by
      rintro ⟨⟩
      simp [Form.operators] at hop
    have hafter := ihr (by simp_all [Form.operators])
    exact (ihl hop).append hl.balanced (.cons rfl (fun h => hne h.2.1) hafter)
      (by rintro _ ⟨⟩; exact hne)

/-! ### Steps of resolution -/

section

variable {tokens : List Lexeme} {position : Position} {t : Lexeme}

theorem findSome?_rightmostCut?_eq_none {ops : List BinaryOp} (h : ∀ op ∈ ops, Free op tokens) :
    ops.findSome? (fun op => (rightmostCut? op tokens).map (op, ·)) = none := by
  rw [List.findSome?_eq_none_iff]
  intro op hop
  rw [Option.map_eq_none_iff, rightmostCut?, lastCut?_eq_none_iff]
  intro before t after hsplit
  exact decide_eq_false (h op hop before t after hsplit)

theorem Phrase.loosestCut?_eq_none {room : Nat} {e : Expr}
    (h : Phrase room (.level [] position) tokens e) : loosestCut? tokens = none :=
  findSome?_rightmostCut?_eq_none fun op hop => h.free (by
    rintro hpow
    obtain rfl := List.mem_singleton.1 hpow
    simp [additive, subtractive, multiplicative, divisive] at hop)

theorem resolve_of_cut {op : BinaryOp} {c : Cut} (hcut : loosestCut? tokens = some (op, c)) :
    resolve position tokens = do
      let left ← resolve position c.before
      let right ← resolve .operand c.after
      return .join op left right := by
  rw [resolve]
  split
  · next heq =>
    rw [hcut] at heq
    cases heq
    rfl
  · next heq => simp [hcut] at heq

theorem resolve_unsigned (hcut : loosestCut? (t :: tokens) = none) (ht : t.token.sign? = none) :
    resolve position (t :: tokens) = resolvePower (t :: tokens) := by
  rw [resolve]
  split
  · next heq => simp [hcut] at heq
  · simp only [ht]

theorem Phrase.resolve_eq {room : Nat} {e : Expr} (h : Phrase room .power tokens e) :
    resolve position tokens = resolvePower tokens := by
  obtain ⟨t, tokens, rfl⟩ := List.exists_cons_of_ne_nil h.ne_nil
  have hhead := h.head_beginsOperand (.inr (.inr rfl)) t rfl
  have hterm : Phrase room (.level [] .operand) (t :: tokens) e := .unsigned h
  refine resolve_unsigned hterm.loosestCut?_eq_none ?_
  cases hsign : t.token.sign? with
  | none => rfl
  | some sign =>
    obtain ⟨op, hop⟩ := exists_operator_of_sign? hsign
    simp [hop, Token.beginsOperand] at hhead

theorem resolve_fused {value : Float} {span : Span} {sign : Sign}
    (hcut : loosestCut? (t :: ⟨.number value, span⟩ :: tokens) = none)
    (ht : t.token.sign? = some sign) :
    resolve .leading (t :: ⟨.number value, span⟩ :: tokens) =
      resolvePower (⟨.number (sign.apply value), t.span.cover span⟩ :: tokens) := by
  rw [resolve]
  split
  · next heq => simp [hcut] at heq
  · simp only [ht]

theorem resolve_signed {sign : Sign} (hcut : loosestCut? (t :: tokens) = none)
    (ht : t.token.sign? = some sign) (hplain : position = .leading → ¬beginsWithNumber tokens) :
    resolve position (t :: tokens) = do
      let operand ← resolve .operand tokens
      return signed t.span operand sign := by
  rw [resolve]
  split
  · next heq => simp [hcut] at heq
  · simp only [ht]
    split
    · exact absurd trivial (hplain rfl)
    · rfl

theorem resolvePower_raised {before after : List Lexeme} {place : Span}
    (hbefore : Free .pow before) (hbalanced : Balanced before) :
    resolvePower (before ++ ⟨.operator .pow, place⟩ :: after) = do
      let base ← resolveChain none before
      let exponent ← resolve .operand after
      return .join .pow base exponent := by
  have hcut : powerCut? (before ++ ⟨.operator .pow, place⟩ :: after) =
      some ⟨before, ⟨.operator .pow, place⟩, after⟩ := by
    refine firstCut?_append (decide_eq_true ⟨?_, rfl, by simp [Token.sign?]⟩) ?_
    · have := hbalanced.in_all
      rwa [Nat.add_zero] at this
    · intro b u a hsplit
      exact decide_eq_false (hbefore b u a hsplit)
  rw [resolvePower]
  split
  · next heq =>
    rw [hcut] at heq
    cases heq
    rfl
  · next heq => simp [hcut] at heq

theorem resolvePower_unraised (h : Free .pow tokens) :
    resolvePower tokens = resolveChain none tokens := by
  have hcut : powerCut? tokens = none := by
    rw [powerCut?, firstCut?_eq_none_iff]
    intro before t after hsplit
    exact decide_eq_false (h before t after hsplit)
  rw [resolvePower]
  split
  · next heq => simp [hcut] at heq
  · rfl

theorem resolveChain_group {left : Option Expr} {inside rest : List Lexeme} {opened closed : Span}
    (h : Balanced inside) :
    resolveChain left (⟨.opening, opened⟩ :: (inside ++ ⟨.closing, closed⟩ :: rest)) =
      (resolve .leading inside).bind fun inner =>
        resolveChain (besideAny left (.group inner (opened.cover closed))) rest := by
  have hcut : closingCut? (inside ++ ⟨.closing, closed⟩ :: rest) =
      some ⟨inside, ⟨.closing, closed⟩, rest⟩ := by
    refine firstCut?_append (decide_eq_true ⟨?_, rfl⟩) ?_
    · have := h.in_all
      rwa [Nat.add_zero] at this
    · intro before u after hsplit
      refine decide_eq_false ?_
      rintro ⟨houtside, hclosing⟩
      have := h.never_more (before ++ [u]) after (by rw [hsplit, List.append_assoc]; rfl)
      have hclosing : u.token = .closing := hclosing
      have houtside : closings before = openings before := houtside
      simp only [closings_append, openings_append, closings_cons, openings_cons, closings_nil,
        openings_nil, hclosing, if_true, reduceCtorEq, if_false] at this
      omega
  rw [resolveChain]
  split
  · next heq =>
    rw [hcut] at heq
    cases heq
    rfl
  · next heq => simp [hcut] at heq

end

/-! ### Phrases are resolved -/

/-- What resolution makes of the tokens of a phrase. A chain may be gone on with. -/
def Form.Resolves : Form → List Lexeme → Expr → Prop
  | primary, tokens, e => ∀ left rest,
    resolveChain left (tokens ++ rest) = resolveChain (besideAny left e) rest
  | chain, tokens, e => ∀ rest, resolveChain none (tokens ++ rest) = resolveChain (some e) rest
  | power, tokens, e => resolvePower tokens = some e
  | level ops position, tokens, e => ops <:+ additive → resolve position tokens = some e

/-- Resolution cuts a level at its own operator, the last of it. -/
theorem loosestCut?_join {room : Nat} {op : BinaryOp} {ops : List BinaryOp} {position : Position}
    {before after : List Lexeme} {place : Span} {left right : Expr}
    (hleft : Phrase room (.level (op :: ops) position) before left)
    (hright : Phrase room (.level ops .operand) after right) (hops : op :: ops <:+ additive) :
    loosestCut? (before ++ ⟨.operator op, place⟩ :: after) =
      some (op, ⟨before, ⟨.operator op, place⟩, after⟩) := by
  obtain ⟨looser, hlooser⟩ := hops
  have hnodup : (looser ++ op :: ops).Nodup := by rw [hlooser]; decide
  have hpow {o : BinaryOp} (ho : o ∈ looser ++ op :: ops) : o ≠ .pow := by
    rintro rfl
    rw [hlooser] at ho
    revert ho
    decide
  have hfree : Free op after := by
    refine hright.free fun hmem => ?_
    rcases List.mem_cons.1 hmem with h | h
    · exact hpow (by simp) h
    · exact (List.nodup_cons.1 (List.nodup_append.1 hnodup).2.1).1 h
  have hcut : rightmostCut? op (before ++ ⟨.operator op, place⟩ :: after) =
      some ⟨before, ⟨.operator op, place⟩, after⟩ := by
    refine lastCut?_append
      (decide_eq_true ⟨hleft.balanced.in_all, rfl, fun _ => hleft.endsOperand⟩) ?_
    intro b u a hsplit
    refine decide_eq_false fun hbinary => ?_
    have h := (isBinary_append_iff hleft.balanced (by simp)).1 hbinary
    exact hfree b u a hsplit (IsBinary.of_cons rfl h)
  have hnone : looser.findSome? (fun o =>
      (rightmostCut? o (before ++ ⟨.operator op, place⟩ :: after)).map (o, ·)) = none := by
    refine findSome?_rightmostCut?_eq_none fun o ho =>
      (Phrase.join hleft hright).free fun hmem => ?_
    rcases List.mem_cons.1 hmem with h | h
    · exact hpow (List.mem_append_left _ ho) h
    · exact (List.nodup_append.1 hnodup).2.2 o ho o h rfl
  rw [loosestCut?, ← hlooser, List.findSome?_append, hnone, Option.none_or, List.findSome?_cons,
    hcut, Option.map_some]

theorem Phrase.resolves {room : Nat} {form : Form} {tokens : List Lexeme} {e : Expr}
    (h : Phrase room form tokens e) : form.Resolves tokens e := by
  induction h with
  | number =>
    intro left rest
    rw [List.singleton_append, resolveChain]
  | group h ih =>
    intro left rest
    have hinner := ih (List.suffix_refl _)
    rw [List.cons_append, List.append_assoc, List.singleton_append,
      resolveChain_group h.balanced, hinner]
    rfl
  | single _ ih => exact fun rest => ih none rest
  | beside _ _ ihl ihr =>
    intro rest
    rw [List.append_assoc, ihl, ihr]
    rfl
  | unraised h ih =>
    have hchain := ih []
    rw [List.append_nil] at hchain
    rw [Form.Resolves, resolvePower_unraised (h.free (by simp [Form.operators])), hchain,
      resolveChain]
  | raised h _ ihl ihr =>
    have hbase := ihl []
    rw [List.append_nil, resolveChain] at hbase
    rw [Form.Resolves, resolvePower_raised (h.free (by simp [Form.operators])) h.balanced, hbase,
      ihr (List.nil_suffix)]
    rfl
  | unsigned h ih =>
    intro _
    rw [h.resolve_eq, ih]
  | fused ht h ih =>
    intro _
    rw [resolve_fused (Phrase.fused ht h).loosestCut?_eq_none ht, ih]
  | @signed _ position t sign tokens operand ht hplain h ih =>
    intro _
    rw [resolve_signed (Phrase.signed ht hplain h).loosestCut?_eq_none ht hplain, h.resolve_eq, ih]
    rfl
  | tighter _ ih => exact fun hops => ih ((List.suffix_cons ..).trans hops)
  | join hl hr ihl ihr =>
    intro hops
    rw [resolve_of_cut (loosestCut?_join hl hr hops), ihl hops,
      ihr ((List.suffix_cons ..).trans hops)]
    rfl

/-- Resolution gives the same expression as the parser, spans included. -/
theorem resolve_of_parse {limits : Limits} {source : Text} {tokens : List Lexeme} {e : Expr}
    (h : parse limits source tokens = .ok e) : resolve .leading tokens = some e :=
  (phrase_of_parse h).resolves (List.suffix_refl _)

/-- The sign of `-2` is part of the number, and the sign in the group stands between operands. -/
theorem resolve_of_parse_signs : ∃ tokens e, scan "-2^3+4(5-6)".toList = .ok tokens ∧
    parse {} [] tokens = .ok e ∧ resolve .leading tokens = some e := by
  have h : parse {} [] [⟨.operator .sub, ⟨0, 1⟩⟩, ⟨.number 2, ⟨1, 2⟩⟩, ⟨.operator .pow, ⟨2, 3⟩⟩,
      ⟨.number 3, ⟨3, 4⟩⟩, ⟨.operator .add, ⟨4, 5⟩⟩, ⟨.number 4, ⟨5, 6⟩⟩, ⟨.opening, ⟨6, 7⟩⟩,
      ⟨.number 5, ⟨7, 8⟩⟩, ⟨.operator .sub, ⟨8, 9⟩⟩, ⟨.number 6, ⟨9, 10⟩⟩, ⟨.closing, ⟨10, 11⟩⟩] =
      .ok (.join .add (.join .pow (.literal (-2) ⟨0, 2⟩) (.literal 3 ⟨3, 4⟩))
        (.beside (.literal 4 ⟨5, 6⟩)
          (.group (.join .sub (.literal 5 ⟨7, 8⟩) (.literal 6 ⟨9, 10⟩)) ⟨6, 11⟩))) := by
    decide +kernel
  exact ⟨_, _, by decide +kernel, h, resolve_of_parse h⟩

end Calculator.Grammar
