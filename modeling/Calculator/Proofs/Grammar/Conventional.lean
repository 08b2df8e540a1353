import Mathlib.Algebra.Field.Rat
import Mathlib.Algebra.Group.Basic
import Calculator.Proofs.Expr.Sides

/-! The usual precedence, where addition and subtraction bind alike, and multiplication and division
do. Main statement: it leads to other expressions than the parser does, but in exact arithmetic
they have the same value. -/

namespace Calculator

/-! ### Exact values -/

/-- Exact arithmetic, in which a division by zero gives zero. Powers are left out. -/
def BinaryOp.rational? : BinaryOp → Option (ℚ → ℚ → ℚ)
  | add => some (· + ·)
  | sub => some (· - ·)
  | mul => some (· * ·)
  | div => some (· / ·)
  | pow => none

def Sign.rational : Sign → ℚ → ℚ
  | plus, x => x
  | minus, x => -x

/-- What the next literal of a list stands for, if it is this one. -/
def nextValue (value : Float) : StateT (List (Float × ℚ)) Option ℚ
  | [] => none
  | (literal, x) :: literals => if literal = value then some (x, literals) else none

namespace Expr

/-- The exact value where a list gives the literals from left to right and what they stand for. -/
def rational? : Expr → StateT (List (Float × ℚ)) Option ℚ
  | literal value _ => nextValue value
  | group inner _ => inner.rational?
  | negate operand _ => return -(← operand.rational?)
  | binary op left right _ => do
    let f ← op.rational?
    return f (← left.rational?) (← right.rational?)
  | adjacent .. => failure

/-- The literals of the expression are those of the list, and what they stand for makes up `x`. -/
def Computes (e : Expr) (literals : List (Float × ℚ)) (x : ℚ) : Prop :=
  ∀ rest, e.rational?.run (literals ++ rest) = some (x, rest)

section

variable {left right : Expr} {a b : List (Float × ℚ)} {x y : ℚ} {f g : ℚ → ℚ → ℚ}

theorem computes_literal (value : Float) (span : Span) (x : ℚ) :
    (literal value span).Computes [(value, x)] x := by
  intro rest
  simp [rational?, nextValue, StateT.run]

theorem Computes.signed (h : left.Computes a x) (place : Span) (sign : Sign) :
    (Grammar.signed place left sign).Computes a (sign.rational x) := by
  intro rest
  cases sign with
  | plus => exact h rest
  | minus => simp [Grammar.signed, rational?, h rest, Sign.rational]

theorem rational?_join {op : BinaryOp} (hop : op.rational? = some f) (left right : Expr) :
    (Expr.join op left right).rational? = do return f (← left.rational?) (← right.rational?) := by
  rw [Expr.join, rational?, hop]
  rfl

theorem Computes.join {op : BinaryOp} (hop : op.rational? = some f) (hl : left.Computes a x)
    (hr : right.Computes b y) : (Expr.join op left right).Computes (a ++ b) (f x y) := by
  intro rest
  simp [rational?_join hop, hl (b ++ rest), hr rest]

/-- Which of two operators binds tighter makes no difference, where their operations associate. -/
theorem rational?_join_join {op op' : BinaryOp} (hop : op.rational? = some f)
    (hop' : op'.rational? = some g) (hassoc : ∀ x y z, f x (g y z) = g (f x y) z)
    (left middle right : Expr) :
    (Expr.join op left (.join op' middle right)).rational? =
      (Expr.join op' (.join op left middle) right).rational? := by
  simp [rational?_join hop, rational?_join hop', hassoc]

end

end Expr

namespace Grammar

/-! ### The usual reading -/

/-- What a list of tokens can be in the usual reading. -/
inductive Rank where
  | primary
  | factor
  | product
  | sum

/-- In the usual reading the tokens have the value `x`, where each number token stands for the
number beside it. Both levels are grouped from the left. -/
inductive Conventional : Rank → List (Lexeme × ℚ) → ℚ → Prop
  | number {value span x} : Conventional .primary [(⟨.number value, span⟩, x)] x
  | group {opened closed u v inside x} : Conventional .sum inside x →
    Conventional .primary ((⟨.opening, opened⟩, u) :: (inside ++ [(⟨.closing, closed⟩, v)])) x
  | unsigned {valued x} : Conventional .primary valued x → Conventional .factor valued x
  | signed {t u sign valued x} : t.token.sign? = some sign → Conventional .primary valued x →
    Conventional .factor ((t, u) :: valued) (sign.rational x)
  | factor {valued x} : Conventional .factor valued x → Conventional .product valued x
  | times {before place u after x y} :
    Conventional .product before x → Conventional .factor after y →
    Conventional .product (before ++ (⟨.operator .mul, place⟩, u) :: after) (x * y)
  | dividedBy {before place u after x y} :
    Conventional .product before x → Conventional .factor after y →
    Conventional .product (before ++ (⟨.operator .div, place⟩, u) :: after) (x / y)
  | product {valued x} : Conventional .product valued x → Conventional .sum valued x
  | plus {before place u after x y} :
    Conventional .sum before x → Conventional .product after y →
    Conventional .sum (before ++ (⟨.operator .add, place⟩, u) :: after) (x + y)
  | minus {before place u after x y} :
    Conventional .sum before x → Conventional .product after y →
    Conventional .sum (before ++ (⟨.operator .sub, place⟩, u) :: after) (x - y)

/-! ### Values of literals -/

def Position.lead : Position → Option Sign
  | leading => some .plus
  | operand => none

/-- The literals and what they stand for, where each number token stands for the number beside it. A
literal takes in the sign before it in leading position: `lead` is that sign, a plus as long as
there is none, and nothing in other positions. -/
def literalValues : (lead : Option Sign) → List (Lexeme × ℚ) → List (Float × ℚ)
  | _, [] => []
  | lead, (⟨.number value, _⟩, x) :: valued =>
    ((lead.getD .plus).apply value, (lead.getD .plus).rational x) :: literalValues none valued
  | lead, (⟨.operator op, _⟩, _) :: valued =>
    literalValues (lead.bind fun _ => (Token.operator op).sign?) valued
  | _, (⟨.opening, _⟩, _) :: valued => literalValues Position.leading.lead valued
  | _, (⟨.closing, _⟩, _) :: valued => literalValues none valued

theorem literalValues_append {lead : Option Sign} {before : List (Lexeme × ℚ)}
    (h : endsOperand (before.map Prod.fst)) (after : List (Lexeme × ℚ)) :
    literalValues lead (before ++ after) =
      literalValues lead before ++ literalValues none after := by
  induction before generalizing lead with
  | nil => cases h
  | cons first before ih =>
    obtain ⟨⟨token, span⟩, x⟩ := first
    by_cases hnil : before = []
    · subst hnil
      cases token with
      | operator | opening => cases h
      | number | closing => simp [literalValues]
    · rw [List.map_cons, ← List.singleton_append, endsOperand_append (by simpa using hnil)] at h
      cases token <;> simp [literalValues, ih h]

/-- Signs between operands stay on their own. -/
theorem literalValues_join {lead : Option Sign} {before : List (Lexeme × ℚ)}
    (h : endsOperand (before.map Prod.fst)) (op : BinaryOp) (place : Span) (u : ℚ)
    (after : List (Lexeme × ℚ)) :
    literalValues lead (before ++ (⟨.operator op, place⟩, u) :: after) =
      literalValues lead before ++ literalValues none after := by
  rw [literalValues_append h]
  rfl

theorem literalValues_sign {lead : Option Sign} {t : Lexeme} {sign : Sign}
    (ht : t.token.sign? = some sign) (u : ℚ) (valued : List (Lexeme × ℚ)) :
    literalValues lead ((t, u) :: valued) =
      literalValues (lead.bind fun _ => some sign) valued := by
  obtain ⟨token, span⟩ := t
  obtain ⟨op, rfl⟩ := exists_operator_of_sign? ht
  rw [literalValues, show (Token.operator op).sign? = some sign from ht]

/-! ### The usual reading and the parser's -/

/-- The tokens are a phrase with the exact value `x`. -/
def Form.Values (form : Form) (lead : Option Sign) (valued : List (Lexeme × ℚ)) (x : ℚ) : Prop :=
  ∃ room e, Phrase room form (valued.map Prod.fst) e ∧ e.Computes (literalValues lead valued) x

section

variable {ops : List BinaryOp} {position : Position} {op op' : BinaryOp} {f g : ℚ → ℚ → ℚ}
  {valued before after : List (Lexeme × ℚ)} {x y : ℚ}

theorem Form.Values.tighter (h : (Form.level ops position).Values position.lead valued x) :
    (Form.level (op :: ops) position).Values position.lead valued x := by
  obtain ⟨room, e, hphrase, hvalue⟩ := h
  exact ⟨room, e, .tighter hphrase, hvalue⟩

theorem Form.Values.join (hop : op.rational? = some f)
    (hl : (Form.level (op :: ops) position).Values position.lead before x)
    (hr : (Form.level ops .operand).Values Position.operand.lead after y) (place : Span) (u : ℚ) :
    (Form.level (op :: ops) position).Values position.lead
      (before ++ (⟨.operator op, place⟩, u) :: after) (f x y) := by
  obtain ⟨room, left, hleft, hx⟩ := hl
  obtain ⟨room', right, hright, hy⟩ := hr
  refine ⟨max room room', .join op left right, ?_, ?_⟩
  · rw [List.map_append, List.map_cons]
    exact .join (hleft.mono (Nat.le_max_left ..)) (hright.mono (Nat.le_max_right ..))
  · rw [literalValues_join hleft.endsOperand]
    exact hx.join hop hy

/-- The tighter of two operators after a phrase goes to the last operand of the looser one. -/
theorem Phrase.attach {room : Nat} {before after : List Lexeme} {left right : Expr}
    (hop : op.rational? = some f) (hop' : op'.rational? = some g)
    (hassoc : ∀ x y z, f x (g y z) = g (f x y) z)
    (hl : Phrase room (.level (op :: op' :: ops) position) before left)
    (hr : Phrase room (.level ops .operand) after right) (place : Span) :
    ∃ e, Phrase room (.level (op :: op' :: ops) position)
      (before ++ ⟨.operator op', place⟩ :: after) e ∧
      e.rational? = (Expr.join op' left right).rational? := by
  cases hl with
  | tighter hl => exact ⟨_, .tighter (.join hl hr), rfl⟩
  | @join _ _ _ _ before place' middle left mid hl hm =>
    refine ⟨.join op left (.join op' mid right), ?_, Expr.rational?_join_join hop hop' hassoc ..⟩
    rw [List.append_assoc, List.cons_append]
    exact .join hl (.join hm hr)

theorem Form.Values.attach (hop : op.rational? = some f) (hop' : op'.rational? = some g)
    (hassoc : ∀ x y z, f x (g y z) = g (f x y) z)
    (hl : (Form.level (op :: op' :: ops) position).Values position.lead before x)
    (hr : (Form.level ops .operand).Values Position.operand.lead after y) (place : Span) (u : ℚ) :
    (Form.level (op :: op' :: ops) position).Values position.lead
      (before ++ (⟨.operator op', place⟩, u) :: after) (g x y) := by
  obtain ⟨room, left, hleft, hx⟩ := hl
  obtain ⟨room', right, hright, hy⟩ := hr
  obtain ⟨e, hphrase, hsame⟩ := (hleft.mono (Nat.le_max_left room room')).attach hop hop' hassoc
    (hright.mono (Nat.le_max_right room room')) place
  refine ⟨max room room', e, ?_, ?_⟩
  · rwa [List.map_append, List.map_cons]
  · rw [literalValues_join hleft.endsOperand, Expr.Computes, hsame]
    exact hx.join hop' hy

theorem Form.Values.primary (h : Form.primary.Values position.lead valued x) :
    (Form.level [] position).Values position.lead valued x := by
  obtain ⟨room, e, hphrase, hvalue⟩ := h
  exact ⟨room, e, .unsigned (.unraised (.single hphrase)), hvalue⟩

theorem Form.Values.number (position : Position) (value : Float) (span : Span) (x : ℚ) :
    Form.primary.Values position.lead [(⟨.number value, span⟩, x)] x := by
  refine ⟨0, _, .number, ?_⟩
  cases position <;> exact Expr.computes_literal value span x

theorem Form.Values.group {inside : List (Lexeme × ℚ)}
    (h : (Form.level additive .leading).Values Position.leading.lead inside x) (lead : Option Sign)
    (opened closed : Span) (u v : ℚ) :
    Form.primary.Values lead
      ((⟨.opening, opened⟩, u) :: (inside ++ [(⟨.closing, closed⟩, v)])) x := by
  obtain ⟨room, e, hphrase, hvalue⟩ := h
  refine ⟨room + 1, .group e (opened.cover closed), ?_, ?_⟩
  · simpa using Phrase.group hphrase
  · rw [literalValues, literalValues_append hphrase.endsOperand, literalValues, literalValues,
      List.append_nil]
    exact hvalue

/-- Whether a sign goes into the literal after it or stays on its own, it counts the same. -/
theorem Form.Values.signed {t : Lexeme} {sign : Sign} (ht : t.token.sign? = some sign)
    (h : Conventional .primary valued x)
    (hvalues : ∀ position : Position, Form.primary.Values position.lead valued x)
    (position : Position) (u : ℚ) :
    (Form.level [] position).Values position.lead ((t, u) :: valued) (sign.rational x) := by
  -- where the sign stays on its own
  have hsigned (hplain : position = .leading → ¬beginsWithNumber (valued.map Prod.fst))
      (hlead : literalValues (position.lead.bind fun _ => some sign) valued =
        literalValues Position.operand.lead valued) :
      (Form.level [] position).Values position.lead ((t, u) :: valued) (sign.rational x) := by
    obtain ⟨room, e, hphrase, hvalue⟩ := hvalues .operand
    refine ⟨room + 1, _, .signed ht hplain (.unraised (.single hphrase)), ?_⟩
    rw [literalValues_sign ht, hlead]
    exact hvalue.signed t.span sign
  cases h with
  | number =>
    cases position with
    | leading =>
      refine ⟨0, _, .fused ht (.unraised (.single .number)), ?_⟩
      rw [literalValues_sign ht]
      exact Expr.computes_literal (sign.apply _) _ (sign.rational x)
    | operand => exact hsigned (fun h => by cases h) rfl
  | group => exact hsigned (fun _ h => h) rfl

end

def Rank.form : Rank → Position → Form
  | primary, _ => .primary
  | factor, position => .level [] position
  | product, position => .level multiplicative position
  | sum, position => .level additive position

/-- What is read in the usual way can be read by the parser's rules, with the same value. -/
theorem Conventional.values {rank : Rank} {valued : List (Lexeme × ℚ)} {x : ℚ}
    (h : Conventional rank valued x) (position : Position) :
    (rank.form position).Values position.lead valued x := by
  induction h generalizing position with
  | number => exact .number ..
  | group _ ih => exact (ih .leading).group ..
  | unsigned _ ih => exact (ih position).primary
  | signed ht h ih => exact .signed ht h ih position _
  | factor _ ih => exact (ih position).tighter.tighter
  | times _ _ ihl ihr => exact .join rfl (ihl position) (ihr .operand).tighter ..
  | dividedBy _ _ ihl ihr =>
    exact .attach rfl rfl (fun x y z => (mul_div_assoc x y z).symm) (ihl position) (ihr .operand) ..
  | product _ ih => exact (ih position).tighter.tighter
  | plus _ _ ihl ihr => exact .join rfl (ihl position) (ihr .operand).tighter ..
  | minus _ _ ihl ihr =>
    exact .attach rfl rfl (fun x y z => (add_sub_assoc x y z).symm) (ihl position) (ihr .operand) ..

/-! ### Every phrase in the usual reading -/

section

variable {valued before after : List (Lexeme × ℚ)} {x y : ℚ}

theorem Conventional.add (hl : Conventional .sum before x) (hr : Conventional .sum after y)
    (place : Span) (u : ℚ) :
    Conventional .sum (before ++ (⟨.operator .add, place⟩, u) :: after) (x + y) := by
  generalize hrank : Rank.sum = rank at hr
  induction hr with
  | product h => exact .plus hl h
  | plus _ h ih =>
    rw [← add_assoc, ← List.cons_append, ← List.append_assoc]
    exact .plus (ih rfl) h
  | minus _ h ih =>
    rw [← add_sub_assoc, ← List.cons_append, ← List.append_assoc]
    exact .minus (ih rfl) h
  | _ => cases hrank

theorem Conventional.mul (hl : Conventional .product before x) (hr : Conventional .product after y)
    (place : Span) (u : ℚ) :
    Conventional .product (before ++ (⟨.operator .mul, place⟩, u) :: after) (x * y) := by
  generalize hrank : Rank.product = rank at hr
  induction hr with
  | factor h => exact .times hl h
  | times _ h ih =>
    rw [← mul_assoc, ← List.cons_append, ← List.append_assoc]
    exact .times (ih rfl) h
  | dividedBy _ h ih =>
    rw [← mul_div_assoc, ← List.cons_append, ← List.append_assoc]
    exact .dividedBy (ih rfl) h
  | _ => cases hrank

end

def Form.rank : Form → Rank
  | level [] _ => .factor
  | level [.div] _ | level [.mul, .div] _ => .product
  | level _ _ => .sum
  | _ => .primary

/-- The levels of the parser are those of its table. -/
def Form.IsLevel : Form → Prop
  | level ops _ => ops <:+ additive
  | _ => True

theorem suffix_additive_cases {op : BinaryOp} {ops : List BinaryOp} (h : op :: ops <:+ additive) :
    op = .add ∧ ops = subtractive ∨ op = .sub ∧ ops = multiplicative ∨
      op = .mul ∧ ops = divisive ∨ op = .div ∧ ops = [] := by
  simpa [additive, subtractive, multiplicative, divisive, List.suffix_cons_iff] using h

theorem Phrase.exists_conventional {room : Nat} {form : Form} {tokens : List Lexeme} {e : Expr}
    (h : Phrase room form tokens e) (hform : form.IsLevel) (hunjoined : e.Unjoined)
    (hpow : ∀ t ∈ tokens, t.token ≠ .operator .pow) {valued : List (Lexeme × ℚ)}
    (hvalued : valued.map Prod.fst = tokens) : ∃ x, Conventional form.rank valued x := by
  induction h generalizing valued with
  | number =>
    obtain ⟨⟨_, x⟩, rfl, rfl⟩ := List.map_eq_singleton_iff.1 hvalued
    exact ⟨x, .number⟩
  | group _ ih =>
    obtain ⟨⟨_, u⟩, rest, rfl, rfl, hrest⟩ := List.map_eq_cons_iff.1 hvalued
    obtain ⟨inside, last, rfl, hinside, hlast⟩ := List.map_eq_append_iff.1 hrest
    obtain ⟨⟨_, v⟩, rfl, rfl⟩ := List.map_eq_singleton_iff.1 hlast
    obtain ⟨x, h⟩ := ih (List.suffix_refl _) (Expr.unjoined_group_iff.1 hunjoined)
      (fun t ht => hpow t (by simp [ht])) hinside
    exact ⟨x, .group h⟩
  | single _ ih | unraised _ ih => exact ih trivial hunjoined hpow hvalued
  | beside => exact absurd hunjoined Expr.not_unjoined_adjacent
  | @raised _ _ place => exact absurd rfl (hpow ⟨.operator .pow, place⟩ (by simp))
  | unsigned _ ih =>
    obtain ⟨x, h⟩ := ih trivial hunjoined hpow hvalued
    exact ⟨x, .unsigned h⟩
  | @fused _ _ sign value span _ _ ht _ ih =>
    obtain ⟨⟨t, u⟩, rest, rfl, rfl, hrest⟩ := List.map_eq_cons_iff.1 hvalued
    obtain ⟨⟨_, v⟩, rest, rfl, rfl, rfl⟩ := List.map_eq_cons_iff.1 hrest
    obtain ⟨x, h⟩ : ∃ x, Conventional .primary
        ((⟨.number (sign.apply value), t.span.cover span⟩, v) :: rest) x := by
      refine ih trivial hunjoined (List.forall_mem_cons.2 ⟨by simp, fun t ht => ?_⟩) rfl
      exact hpow t (List.mem_cons_of_mem _ (List.mem_cons_of_mem _ ht))
    -- nothing but a number begins with one
    cases h
    exact ⟨_, .signed ht .number⟩
  | signed ht _ _ ih =>
    obtain ⟨⟨_, u⟩, rest, rfl, rfl, hrest⟩ := List.map_eq_cons_iff.1 hvalued
    obtain ⟨x, h⟩ := ih trivial (unjoined_signed_iff.1 hunjoined)
      (fun t ht => hpow t (List.mem_cons_of_mem _ ht)) hrest
    exact ⟨_, .signed ht h⟩
  | tighter _ ih =>
    obtain ⟨x, h⟩ := ih ((List.suffix_cons _ _).trans hform) hunjoined hpow hvalued
    refine ⟨x, ?_⟩
    rcases suffix_additive_cases hform with ⟨rfl, rfl⟩ | ⟨rfl, rfl⟩ | ⟨rfl, rfl⟩ | ⟨rfl, rfl⟩
    · exact h
    · exact .product h
    · exact h
    · exact .factor h
  | @join room op _ _ _ place _ _ _ _ _ ihl ihr =>
    obtain ⟨before, rest, rfl, hbefore, hrest⟩ := List.map_eq_append_iff.1 hvalued
    obtain ⟨⟨_, u⟩, after, rfl, rfl, hafter⟩ := List.map_eq_cons_iff.1 hrest
    obtain ⟨hleft, hright⟩ := Expr.unjoined_binary_iff.1 hunjoined
    obtain ⟨x, hl⟩ := ihl hform hleft (fun t ht => hpow t (List.mem_append_left _ ht)) hbefore
    obtain ⟨y, hr⟩ := ihr ((List.suffix_cons _ _).trans hform) hright
      (fun t ht => hpow t (by simp [ht])) hafter
    rcases suffix_additive_cases hform with ⟨rfl, rfl⟩ | ⟨rfl, rfl⟩ | ⟨rfl, rfl⟩ | ⟨rfl, rfl⟩
    · exact ⟨_, hl.add hr place u⟩
    · exact ⟨_, .minus hl hr⟩
    · exact ⟨_, hl.mul hr place u⟩
    · exact ⟨_, .dividedBy hl hr⟩

/-- In exact arithmetic, where a division by zero gives zero, the parser's precedence makes no
difference: without powers and operands side by side the tokens have one value in the usual
reading, whatever their numbers stand for, and the parsed expression has that value. -/
theorem exact_conventional {limits : Limits} {source : Text} {valued : List (Lexeme × ℚ)} {e : Expr}
    (h : parse limits source (valued.map Prod.fst) = .ok e)
    (hpow : ∀ t ∈ valued.map Prod.fst, t.token ≠ .operator .pow)
    (hspaced : Spaced (valued.map Prod.fst)) :
    ∃ x, e.rational?.run (literalValues Position.leading.lead valued) = some (x, []) ∧
      ∀ y, Conventional .sum valued y ↔ y = x := by
  have hphrase := phrase_of_parse h
  have hvalue {y : ℚ} (hy : Conventional .sum valued y) :
      e.rational?.run (literalValues Position.leading.lead valued) = some (y, []) := by
    obtain ⟨room, e', hphrase', hcomputes⟩ := hy.values .leading
    obtain rfl := (hphrase.mono (Nat.le_max_left limits.nesting room)).unique
      (hphrase'.mono (Nat.le_max_right ..))
    simpa using hcomputes []
  obtain ⟨x, hx⟩ := hphrase.exists_conventional (List.suffix_refl _)
    (hphrase.unjoined_iff.2 hspaced) hpow rfl
  refine ⟨x, hvalue hx, fun y => ⟨fun hy => ?_, fun heq => heq ▸ hx⟩⟩
  have hsame := (hvalue hy).symm.trans (hvalue hx)
  cases hsame
  rfl

/-- The tree has the subtraction inside the addition and the division inside the multiplication. The
two numbers in the group stand for the same value, so the denominator is zero. -/
theorem exact_conventional_denominator : ∃ valued e,
    scan "-1+2-3*4/(5-6)".toList = .ok (valued.map Prod.fst) ∧
    parse {} "-1+2-3*4/(5-6)".toList (valued.map Prod.fst) = .ok e ∧
    e.rational?.run (literalValues Position.leading.lead valued) = some (5 / 2, []) ∧
    ∀ y, Conventional .sum valued y ↔ y = 5 / 2 := by
  let valued : List (Lexeme × ℚ) := [(⟨.operator .sub, ⟨0, 1⟩⟩, 0), (⟨.number 1, ⟨1, 2⟩⟩, 1 / 2),
    (⟨.operator .add, ⟨2, 3⟩⟩, 0), (⟨.number 2, ⟨3, 4⟩⟩, 3), (⟨.operator .sub, ⟨4, 5⟩⟩, 0),
    (⟨.number 3, ⟨5, 6⟩⟩, 2), (⟨.operator .mul, ⟨6, 7⟩⟩, 0), (⟨.number 4, ⟨7, 8⟩⟩, 5),
    (⟨.operator .div, ⟨8, 9⟩⟩, 0), (⟨.opening, ⟨9, 10⟩⟩, 0), (⟨.number 5, ⟨10, 11⟩⟩, 1 / 3),
    (⟨.operator .sub, ⟨11, 12⟩⟩, 0), (⟨.number 6, ⟨12, 13⟩⟩, 1 / 3), (⟨.closing, ⟨13, 14⟩⟩, 0)]
  have hparse : parse {} "-1+2-3*4/(5-6)".toList (valued.map Prod.fst) =
      .ok (.join .add (.literal (-1) ⟨0, 2⟩) (.join .sub (.literal 2 ⟨3, 4⟩)
        (.join .mul (.literal 3 ⟨5, 6⟩) (.join .div (.literal 4 ⟨7, 8⟩)
          (.group (.join .sub (.literal 5 ⟨10, 11⟩) (.literal 6 ⟨12, 13⟩)) ⟨9, 14⟩))))) := by
    decide +kernel
  have hspaced : Spaced (valued.map Prod.fst) :=
    (phrase_of_parse hparse).unjoined_iff.1 (by simp [Expr.join])
  obtain ⟨x, hx, hconventional⟩ := exact_conventional hparse (by decide) hspaced
  obtain rfl : x = 5 / 2 := by
    have hvalue : some (x, []) = some ((5 / 2 : ℚ), ([] : List (Float × ℚ))) :=
      hx.symm.trans (by decide +kernel)
    cases hvalue
    rfl
  exact ⟨valued, _, by decide +kernel, hparse, hx, hconventional⟩

end Grammar

end Calculator
