import Calculator.Grammar.Parse
import Calculator.Proofs.Token.Matching

/-! The grammar as rules: which token lists write which expression, and within how many levels of
nesting. Main statements: what a parser takes from the front of a list is a phrase that writes
the expression it returns, and the token after it is none that the parser could have taken as
well; so a list that is parsed as a whole is a phrase. -/

namespace Calculator.Grammar

/-- What a phrase can be. -/
inductive Form where
  /-- A number or a group. -/
  | primary
  /-- Primaries side by side. -/
  | chain
  /-- A chain with or without an exponent. -/
  | power
  /-- Powers with or without a sign, joined by operators. -/
  | level (ops : List BinaryOp) (position : Position)

/-- What a sign at `place` makes of the operand after it: a plus leaves no node. -/
def signed (place : Span) (operand : Expr) : Sign → Expr
  | .plus => operand
  | .minus => .negate operand (place.cover operand.span)

def beginsWithNumber : List Lexeme → Prop
  | ⟨.number _, _⟩ :: _ => True
  | _ => False

theorem exists_number_of_beginsWithNumber {tokens : List Lexeme} (h : beginsWithNumber tokens) :
    ∃ value span rest, tokens = ⟨.number value, span⟩ :: rest := by
  unfold beginsWithNumber at h
  split at h
  · exact ⟨_, _, _, rfl⟩
  · exact h.elim

/-- The token list writes the expression, with at most `room` levels inside each other. -/
inductive Phrase : (room : Nat) → Form → List Lexeme → Expr → Prop
  | number {room value span} : Phrase room .primary [⟨.number value, span⟩] (.literal value span)
  | group {room opened inside closed inner} :
    Phrase room (.level additive .leading) inside inner →
    Phrase (room + 1) .primary (⟨.opening, opened⟩ :: (inside ++ [⟨.closing, closed⟩]))
      (.group inner (opened.cover closed))
  | single {room tokens e} : Phrase room .primary tokens e → Phrase room .chain tokens e
  | beside {room before after left right} :
    Phrase room .chain before left → Phrase room .primary after right →
    Phrase room .chain (before ++ after) (left.beside right)
  | unraised {room tokens e} : Phrase room .chain tokens e → Phrase room .power tokens e
  | raised {room before place after base exponent} :
    Phrase (room + 1) .chain before base → Phrase room (.level [] .operand) after exponent →
    Phrase (room + 1) .power (before ++ ⟨.operator .pow, place⟩ :: after)
      (.join .pow base exponent)
  | unsigned {room position tokens e} :
    Phrase room .power tokens e → Phrase room (.level [] position) tokens e
  /-- In leading position a sign and the number after it are read as one signed number. -/
  | fused {room t sign value span rest e} : t.token.sign? = some sign →
    Phrase room .power (⟨.number (sign.apply value), t.span.cover span⟩ :: rest) e →
    Phrase room (.level [] .leading) (t :: ⟨.number value, span⟩ :: rest) e
  | signed {room position t sign tokens operand} : t.token.sign? = some sign →
    (position = .leading → ¬beginsWithNumber tokens) →
    Phrase room .power tokens operand →
    Phrase (room + 1) (.level [] position) (t :: tokens) (signed t.span operand sign)
  | tighter {room op ops position tokens e} :
    Phrase room (.level ops position) tokens e → Phrase room (.level (op :: ops) position) tokens e
  | join {room op ops position before place after left right} :
    Phrase room (.level (op :: ops) position) before left →
    Phrase room (.level ops .operand) after right →
    Phrase room (.level (op :: ops) position) (before ++ ⟨.operator op, place⟩ :: after)
      (.join op left right)

/-- A power on its own is an expression. -/
theorem Phrase.expression_of_power {room : Nat} {position : Position} {tokens : List Lexeme}
    {e : Expr} (h : Phrase room .power tokens e) : Phrase room (.level additive position) tokens e :=
  .tighter (.tighter (.tighter (.tighter (.unsigned h))))

theorem Phrase.ne_nil {room : Nat} {form : Form} {tokens : List Lexeme} {e : Expr}
    (h : Phrase room form tokens e) : tokens ≠ [] := by
  induction h with
  | single _ ih | unraised _ ih | unsigned _ ih | tighter _ ih => exact ih
  | beside _ _ ih => simp [ih]
  | _ => simp

theorem exists_operator_of_sign? {t : Token} {sign : Sign} (h : t.sign? = some sign) :
    ∃ op, t = .operator op := by
  cases t with
  | operator op => exact ⟨op, rfl⟩
  | _ => cases h

theorem not_parenthesis_of_sign? {t : Token} {sign : Sign} (h : t.sign? = some sign) :
    t ≠ .opening ∧ t ≠ .closing := by
  constructor <;> rintro rfl <;> cases h

theorem Phrase.balanced {room : Nat} {form : Form} {tokens : List Lexeme} {e : Expr}
    (h : Phrase room form tokens e) : Balanced tokens := by
  induction h with
  | number => exact (closes_other_iff (by simp) (by simp)).2 (closes_nil_iff.2 rfl)
  | group _ ih => exact ih.enclose _ _
  | single _ ih | unraised _ ih | unsigned _ ih | tighter _ ih => exact ih
  | beside _ _ ihl ihr => exact ihl.append ihr
  | raised _ _ ihl ihr | join _ _ ihl ihr =>
    exact ihl.append ((closes_other_iff (by simp) (by simp)).2 ihr)
  | fused ht _ ih =>
    obtain ⟨hopening, hclosing⟩ := not_parenthesis_of_sign? ht
    rw [Balanced, closes_other_iff (by simp) (by simp)] at ih
    exact (closes_other_iff hopening hclosing).2 ((closes_other_iff (by simp) (by simp)).2 ih)
  | signed ht _ _ ih =>
    obtain ⟨hopening, hclosing⟩ := not_parenthesis_of_sign? ht
    exact (closes_other_iff hopening hclosing).2 ih

/-- Whether a list ends in a number or a closing parenthesis. -/
def endsOperand (tokens : List Lexeme) : Bool :=
  match tokens.getLast? with
  | some ⟨.number _, _⟩ | some ⟨.closing, _⟩ => true
  | _ => false

theorem endsOperand_append {a b : List Lexeme} (hb : b ≠ []) :
    endsOperand (a ++ b) = endsOperand b := by
  rw [endsOperand, List.getLast?_append, Option.or_of_isSome (by simpa using hb), endsOperand]

theorem Phrase.endsOperand {room : Nat} {form : Form} {tokens : List Lexeme} {e : Expr}
    (h : Phrase room form tokens e) : endsOperand tokens := by
  induction h with
  | number => rfl
  | group => rw [← List.cons_append, endsOperand_append (by simp)]; rfl
  | single _ ih | unraised _ ih | unsigned _ ih | tighter _ ih => exact ih
  | beside _ hr _ ih => rwa [endsOperand_append hr.ne_nil]
  | raised _ hr _ ih | join _ hr _ ih =>
    rwa [List.append_cons, endsOperand_append hr.ne_nil]
  | @fused _ t _ value span rest _ _ _ ih =>
    cases rest with
    | nil => rfl
    | cons u rest =>
      rw [← List.singleton_append, endsOperand_append (by simp)] at ih
      rwa [show t :: ⟨.number value, span⟩ :: u :: rest = [t, _] ++ u :: rest from rfl,
        endsOperand_append (by simp)]
  | signed _ _ h ih => rwa [← List.singleton_append, endsOperand_append h.ne_nil]

theorem Phrase.head_beginsOperand {room : Nat} {form : Form} {tokens : List Lexeme} {e : Expr}
    (h : Phrase room form tokens e) (hform : form = .primary ∨ form = .chain ∨ form = .power) :
    ∀ t ∈ tokens.head?, t.token.beginsOperand := by
  induction h with
  | number | group => simp [Token.beginsOperand]
  | single _ ih => exact ih (.inl rfl)
  | unraised _ ih => exact ih (.inr (.inl rfl))
  | beside h _ ih =>
    obtain ⟨t, tokens, rfl⟩ := List.exists_cons_of_ne_nil h.ne_nil
    exact ih (.inr (.inl rfl))
  | raised h _ ih =>
    obtain ⟨t, tokens, rfl⟩ := List.exists_cons_of_ne_nil h.ne_nil
    exact ih (.inr (.inl rfl))
  | _ => simp at hform

/-- The tokens that may follow a phrase: none that would have been taken as its next part. -/
def Form.MayPrecede : Form → Token → Prop
  | primary, _ => True
  | chain, t => t.beginsOperand = false
  | power, t => t.beginsOperand = false ∧ t ≠ .operator .pow
  | level ops _, t => (t.beginsOperand = false ∧ t ≠ .operator .pow) ∧ ∀ op ∈ ops, t ≠ .operator op

/-- If anything is read from `tokens`, it is written by the front of them as `phrase` tells, and
the next token is one that may follow it. -/
def Finds (phrase : List Lexeme → Expr → Prop) (follows : Token → Prop) (tokens : List Lexeme)
    (found : Reading) : Prop :=
  ∀ {e rest}, found = .ok (e, rest) →
    ∃ used, tokens = used ++ rest ∧ phrase used e ∧ ∀ t ∈ rest.head?, follows t.token

/-- Phrases with one level less to go. -/
def Inside (room : Nat) (form : Form) (tokens : List Lexeme) (e : Expr) : Prop :=
  ∃ r, room = r + 1 ∧ Phrase r form tokens e

/-- What holds of the parsers that lie one level further in. -/
structure Nested.Finds (nested : Nested) (room : Nat) : Prop where
  expression (tokens : List Lexeme) :
    Grammar.Finds (Inside room (.level additive .leading))
      (Form.level additive .leading).MayPrecede tokens (nested.expression.run tokens)
  power (tokens : List Lexeme) :
    Grammar.Finds (Inside room .power) Form.power.MayPrecede tokens (nested.power.run tokens)
  exponent (base : Span) (tokens : List Lexeme) :
    Grammar.Finds (Inside room (.level [] .operand)) (Form.level [] .operand).MayPrecede tokens
      ((nested.exponent base).run tokens)

section

variable {source : Text} {nested : Nested} {room : Nat}

theorem readPrimary_finds (hn : nested.Finds room) (tokens : List Lexeme) :
    Finds (Phrase room .primary) Form.primary.MayPrecede tokens
      (readPrimary source nested tokens) := by
  intro e rest h
  unfold readPrimary at h
  split at h
  · cases h
  · cases h
    exact ⟨_, rfl, .number, fun _ _ => trivial⟩
  · next opened tokens =>
    cases tokens with
    | nil => cases h
    | cons t tokens =>
      rw [readGroup] at h
      split at h
      · cases h
      · obtain ⟨⟨inner, rest'⟩, hinner, h⟩ := bind_eq_ok.1 h
        obtain ⟨inside, hsplit, ⟨r, rfl, hinside⟩, _⟩ := hn.expression _ hinner
        cases rest' with
        | nil => cases h
        | cons c rest' =>
          obtain ⟨token, closed⟩ := c
          dsimp only at h
          split at h
          · next hc =>
            subst hc
            cases h
            exact ⟨_, by rw [hsplit]; simp, .group hinside, fun _ _ => trivial⟩
          · cases h
  · cases h

theorem besideFrom_finds (hn : nested.Finds room) {before : List Lexeme} {left : Expr}
    (hleft : Phrase room .chain before left) (tokens : List Lexeme) :
    Finds (fun used => Phrase room .chain (before ++ used)) Form.chain.MayPrecede tokens
      ((primary source nested).besideFrom left tokens) := by
  intro e rest h
  fun_induction Parser.besideFrom (primary source nested) left tokens generalizing before with
  | case1 left =>
    cases h
    exact ⟨[], rfl, by simpa using hleft, by simp⟩
  | case2 => cases h
  | case3 left t tokens _ right rest' hrun ih =>
    obtain ⟨after, hafter, hright, _⟩ := readPrimary_finds hn _ hrun
    obtain ⟨used, rfl, hused, hfollow⟩ := ih (.beside hleft hright) h
    exact ⟨after ++ used, by rw [hafter, List.append_assoc],
      by rwa [List.append_assoc] at hused, hfollow⟩
  | case4 left t tokens ht =>
    cases h
    exact ⟨[], rfl, by simpa using hleft, by simpa [Form.MayPrecede] using ht⟩

theorem readExponent_finds (hn : nested.Finds room) {before : List Lexeme} {base : Expr}
    (hbase : Phrase room .chain before base) {tokens : List Lexeme}
    (hnext : ∀ t ∈ tokens.head?, t.token.beginsOperand = false) :
    Finds (fun used => Phrase room .power (before ++ used)) Form.power.MayPrecede tokens
      (readExponent nested base tokens) := by
  intro e rest h
  cases tokens with
  | nil =>
    cases h
    exact ⟨[], rfl, by simpa using hbase.unraised, by simp⟩
  | cons t tokens =>
    obtain ⟨token, place⟩ := t
    dsimp only [readExponent] at h
    split at h
    · next ht =>
      subst ht
      obtain ⟨⟨exponent, rest'⟩, hexponent, heq⟩ := bind_eq_ok.1 h
      obtain ⟨after, hsplit, ⟨r, rfl, hafter⟩, hfollow⟩ := hn.exponent _ _ hexponent
      cases heq
      exact ⟨_ :: after, by rw [hsplit, List.cons_append], .raised hbase hafter,
        fun t ht => (hfollow t ht).1⟩
    · next ht =>
      cases h
      refine ⟨[], rfl, by simpa using hbase.unraised, ?_⟩
      simpa [Form.MayPrecede, ht] using hnext

theorem power_finds (hn : nested.Finds room) (tokens : List Lexeme) :
    Finds (Phrase room .power) Form.power.MayPrecede tokens
      ((power source nested).run tokens) := by
  intro e rest h
  obtain ⟨⟨first, rest₁⟩, hfirst, hafter⟩ := bind_eq_ok.1 h
  obtain ⟨⟨base, rest₂⟩, hbase, hexponent⟩ := bind_eq_ok.1 hafter
  obtain ⟨used₁, rfl, hphrase₁, _⟩ := readPrimary_finds hn _ hfirst
  obtain ⟨used₂, rfl, hphrase₂, hnext⟩ := besideFrom_finds hn hphrase₁.single _ hbase
  obtain ⟨used₃, rfl, hphrase₃, hfollow⟩ := readExponent_finds hn hphrase₂ hnext hexponent
  exact ⟨_, by simp only [List.append_assoc], hphrase₃, hfollow⟩

theorem readOperand_finds (hn : nested.Finds room) {position : Position} {t : Lexeme} {sign : Sign}
    (ht : t.token.sign? = some sign) {tokens : List Lexeme}
    (hnext : position = .leading → ¬beginsWithNumber tokens) :
    Finds (Phrase room (.level [] position)) (Form.level [] position).MayPrecede (t :: tokens)
      (readSigned.readOperand nested sign t.span tokens) := by
  intro e rest h
  obtain ⟨⟨operand, rest'⟩, hoperand, hfound⟩ := bind_eq_ok.1 h
  obtain ⟨used, rfl, ⟨r, rfl, hused⟩, hfollow⟩ := hn.power _ hoperand
  have hplain : position = .leading → ¬beginsWithNumber used := by
    intro hp hnumber
    obtain ⟨value, span, used, rfl⟩ := exists_number_of_beginsWithNumber hnumber
    exact hnext hp trivial
  have hphrase := Phrase.signed ht hplain hused
  cases sign <;> cases hfound <;>
    exact ⟨t :: used, rfl, hphrase, fun t ht => ⟨hfollow t ht, by simp⟩⟩

theorem unary_finds (hn : nested.Finds room) (position : Position) (tokens : List Lexeme) :
    Finds (Phrase room (.level [] position)) (Form.level [] position).MayPrecede tokens
      ((unary source nested position).run tokens) := by
  have hpower (tokens : List Lexeme) :
      Finds (Phrase room (.level [] position)) (Form.level [] position).MayPrecede tokens
        ((power source nested).run tokens) := by
    intro e rest h
    obtain ⟨used, hsplit, hused, hfollow⟩ := power_finds hn _ h
    exact ⟨used, hsplit, .unsigned hused, fun t ht => ⟨hfollow t ht, by simp⟩⟩
  intro e rest h
  simp only [unary] at h
  unfold readUnary at h
  split at h
  · exact hpower _ h
  · next t tokens =>
    split at h
    · exact hpower _ h
    · next sign ht =>
      unfold readSigned at h
      split at h
      · next value span tokens =>
        split at h
        · next hp =>
          -- reading on after a literal is reading a power that begins with the number
          subst hp
          have h : (power source nested).run
              (⟨.number (sign.apply value), t.span.cover span⟩ :: tokens) = .ok (e, rest) := h
          obtain ⟨used, hsplit, hused, hfollow⟩ := power_finds hn _ h
          obtain ⟨n, used, rfl⟩ := List.exists_cons_of_ne_nil hused.ne_nil
          rw [List.cons_append, List.cons.injEq] at hsplit
          obtain ⟨rfl, rfl⟩ := hsplit
          exact ⟨t :: _ :: used, rfl, .fused ht hused, fun t ht => ⟨hfollow t ht, by simp⟩⟩
        · next hp => exact readOperand_finds hn ht (fun h => absurd h hp) h
      · next hnumber =>
        refine readOperand_finds hn ht (fun _ hbegins => ?_) h
        obtain ⟨value, span, rest, rfl⟩ := exists_number_of_beginsWithNumber hbegins
        exact hnumber _ _ _ rfl

theorem exponent_finds (hn : nested.Finds room) (base : Span) (tokens : List Lexeme) :
    Finds (Phrase room (.level [] .operand)) (Form.level [] .operand).MayPrecede tokens
      ((exponent source nested base).run tokens) := by
  intro e rest h
  simp only [exponent] at h
  split at h
  · cases h
  · split at h
    · exact unary_finds hn .operand _ h
    · cases h

theorem foldFrom_finds {operand : Parser} {op : BinaryOp} {ops : List BinaryOp}
    {position : Position}
    (hoperand : ∀ tokens, Finds (Phrase room (.level ops .operand))
      (Form.level ops .operand).MayPrecede tokens (operand.run tokens))
    {before : List Lexeme} {left : Expr}
    (hleft : Phrase room (.level (op :: ops) position) before left) {tokens : List Lexeme}
    (hnext : ∀ t ∈ tokens.head?, (Form.level ops position).MayPrecede t.token) :
    Finds (fun used => Phrase room (.level (op :: ops) position) (before ++ used))
      (Form.level (op :: ops) position).MayPrecede tokens (operand.foldFrom op left tokens) := by
  intro e rest h
  fun_induction Parser.foldFrom operand op left tokens generalizing before with
  | case1 left =>
    cases h
    exact ⟨[], rfl, by simpa using hleft, by simp⟩
  | case2 => cases h
  | case3 left t tokens ht right rest' hrun ih =>
    obtain ⟨token, place⟩ := t
    obtain rfl : token = .operator op := ht
    obtain ⟨after, rfl, hright, hfollow⟩ := hoperand _ hrun
    have hjoin : Phrase room (.level (op :: ops) position)
        (before ++ ⟨.operator op, place⟩ :: after) (.join op left right) := .join hleft hright
    obtain ⟨used, rfl, hused, hfollow⟩ := ih hjoin hfollow h
    exact ⟨⟨.operator op, place⟩ :: (after ++ used), by simp, by simpa using hused, hfollow⟩
  | case4 left t tokens ht =>
    cases h
    refine ⟨[], rfl, by simpa using hleft, ?_⟩
    rintro _ ⟨⟩
    have hnext := hnext t rfl
    exact ⟨hnext.1, fun o ho => by
      rcases List.mem_cons.1 ho with rfl | ho
      · exact ht
      · exact hnext.2 o ho⟩

theorem level_finds (hn : nested.Finds room) (ops : List BinaryOp) (position : Position)
    (tokens : List Lexeme) :
    Finds (Phrase room (.level ops position)) (Form.level ops position).MayPrecede tokens
      ((level source nested ops position).run tokens) := by
  induction ops generalizing position tokens with
  | nil => exact unary_finds hn position tokens
  | cons op ops ih =>
    intro e rest h
    obtain ⟨⟨left, rest'⟩, hleft, hafter⟩ := bind_eq_ok.1 h
    obtain ⟨before, rfl, hbefore, hnext⟩ := ih position _ hleft
    obtain ⟨used, rfl, hused, hfollow⟩ := foldFrom_finds (ih .operand) hbefore.tighter hnext hafter
    exact ⟨before ++ used, by simp, hused, hfollow⟩

end

theorem nested_finds (source : Text) (limit room : Nat) :
    (nested source limit room).Finds room := by
  induction room with
  | zero => constructor <;> intros <;> intro _ _ h <;> cases h
  | succ room ih =>
    constructor
    · intro tokens e rest h
      obtain ⟨used, hsplit, hused, hfollow⟩ := level_finds ih additive .leading tokens h
      exact ⟨used, hsplit, ⟨room, rfl, hused⟩, hfollow⟩
    · intro tokens e rest h
      obtain ⟨used, hsplit, hused, hfollow⟩ := power_finds ih tokens h
      exact ⟨used, hsplit, ⟨room, rfl, hused⟩, hfollow⟩
    · intro base tokens e rest h
      obtain ⟨used, hsplit, hused, hfollow⟩ := exponent_finds ih base tokens h
      exact ⟨used, hsplit, ⟨room, rfl, hused⟩, hfollow⟩

theorem expression_finds (source : Text) (limit room : Nat) (tokens : List Lexeme) :
    Finds (Phrase room (.level additive .leading)) (Form.level additive .leading).MayPrecede tokens
      ((expression source (nested source limit room)).run tokens) :=
  level_finds (nested_finds source limit room) additive .leading tokens

/-- A list that is parsed is a phrase as a whole. -/
theorem phrase_of_parse {limits : Limits} {source : Text} {tokens : List Lexeme} {e : Expr}
    (h : parse limits source tokens = .ok e) :
    Phrase limits.nesting (.level additive .leading) tokens e := by
  unfold parse at h
  split at h
  · cases h
  · split at h
    · cases h
    · obtain ⟨⟨found, rest⟩, hrun, heq⟩ := bind_eq_ok.1 h
      obtain ⟨used, hsplit, hused, _⟩ := expression_finds _ _ _ _ hrun
      cases rest with
      | nil =>
        cases heq
        rwa [hsplit, List.append_nil]
      | cons t rest => cases heq

end Calculator.Grammar
