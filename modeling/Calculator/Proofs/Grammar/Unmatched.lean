import Calculator.Proofs.Grammar.Failure
import Calculator.Proofs.Token.Partners

/-! Parentheses without a partner. Each parser takes a front of its list whose parentheses match,
so it never finds one missing where the check of the whole list did not. Main statement: when the
parser reports an unmatched parenthesis, and which one. -/

namespace Calculator.Grammar

/-- What was read leaves a list that closes `n` parentheses, and an error is not about one. -/
def Keeps (n : Nat) : Reading → Prop
  | .ok (_, rest) => Closes n rest
  | .error error => ∀ text, error ≠ .unmatchedParenthesis text

theorem Keeps.bind {n m : Nat} {found : Reading} {f : Expr × List Lexeme → Reading}
    (h : Keeps n found)
    (hf : ∀ e rest, found = .ok (e, rest) → Closes n rest → Keeps m (f (e, rest))) :
    Keeps m (found >>= f) := by
  cases found with
  | error error => exact h
  | ok found => exact hf found.1 found.2 rfl h

/-- The parser keeps the count of parentheses that are left to close. -/
def Parser.Keeps (p : Parser) : Prop :=
  ∀ n tokens, Closes n tokens → Grammar.Keeps n (p.run tokens)

/-- The same of the parsers one level further in. -/
structure Nested.Keeps (nested : Nested) : Prop where
  expression : nested.expression.Keeps
  power : nested.power.Keeps
  exponent (base : Span) : (nested.exponent base).Keeps

namespace Parser.Keeps

variable {p : Parser} {left : Expr} {n : Nat} {tokens : List Lexeme}

theorem foldFrom (hp : p.Keeps) {op : BinaryOp} (h : Closes n tokens) :
    Grammar.Keeps n (p.foldFrom op left tokens) := by
  induction hlength : tokens.length using Nat.strongRecOn generalizing left tokens with
  | ind m ih =>
    cases tokens with
    | nil =>
      rw [Parser.foldFrom_nil]
      exact h
    | cons t tokens =>
      rw [Parser.foldFrom_cons]
      by_cases ht : t.token = .operator op
      · rw [if_pos ht]
        rw [closes_other_iff (by simp [ht]) (by simp [ht])] at h
        refine (hp _ _ h).bind fun right rest hrun hrest => ih _ ?_ hrest rfl
        have := p.shortens hrun
        rw [← hlength, List.length_cons]
        omega
      · rw [if_neg ht]
        exact h

theorem besideFrom (hp : p.Keeps) (h : Closes n tokens) :
    Grammar.Keeps n (p.besideFrom left tokens) := by
  induction hlength : tokens.length using Nat.strongRecOn generalizing left tokens with
  | ind m ih =>
    cases tokens with
    | nil =>
      rw [Parser.besideFrom_nil]
      exact h
    | cons t tokens =>
      rw [Parser.besideFrom_cons]
      by_cases ht : t.token.beginsOperand
      · rw [if_pos ht]
        refine (hp _ _ h).bind fun right rest hrun hrest => ih _ ?_ hrest rfl
        rw [← hlength]
        exact p.shortens hrun
      · rw [if_neg ht]
        exact h

theorem foldLeft {p' : Parser} (hp : p.Keeps) (hp' : p'.Keeps) (op : BinaryOp) :
    (Parser.foldLeft op p p').Keeps :=
  fun _ _ h => (hp _ _ h).bind fun _ _ _ hrest => hp'.foldFrom hrest

end Parser.Keeps

section

variable {source : Text} {nested : Nested} {room n : Nat} {tokens : List Lexeme}

/-- After its opening parenthesis a group is read up to the one that closes it. -/
theorem readGroup_keeps (hk : nested.Keeps) (hn : nested.Finds room) {opened : Span}
    (h : Closes (n + 1) tokens) : Keeps n (readGroup source nested opened tokens) := by
  cases tokens with
  | nil => cases closes_nil_iff.1 h
  | cons t tokens =>
    rw [readGroup]
    by_cases ht : t.token = .closing
    · rw [if_pos ht]
      exact fun _ => by simp
    · rw [if_neg ht]
      refine (hk.expression _ _ h).bind fun inner rest hrun hrest => ?_
      obtain ⟨_, _, _, hfollow⟩ := hn.expression _ hrun
      cases rest with
      | nil => cases closes_nil_iff.1 hrest
      | cons c rest =>
        obtain ⟨token, span⟩ := c
        obtain rfl : token = .closing := closing_of_mayPrecede (hfollow _ rfl)
        exact closes_closing_iff.1 hrest

theorem primary_keeps (hk : nested.Keeps) (hn : nested.Finds room) :
    (primary source nested).Keeps := by
  intro n tokens h
  change Keeps n (readPrimary source nested tokens)
  unfold readPrimary
  split
  · exact fun _ => by simp
  · exact (closes_other_iff (by simp) (by simp)).1 h
  · exact readGroup_keeps hk hn (closes_opening_iff.1 h)
  · exact fun _ => by simp

theorem readExponent_keeps (hk : nested.Keeps) {base : Expr} (h : Closes n tokens) :
    Keeps n (readExponent nested base tokens) := by
  cases tokens with
  | nil => exact h
  | cons t tokens =>
    rw [readExponent]
    by_cases ht : t.token = .operator .pow
    · rw [if_pos ht]
      rw [closes_other_iff (by simp [ht]) (by simp [ht])] at h
      exact (hk.exponent _ _ _ h).bind fun _ _ _ hrest => hrest
    · rw [if_neg ht]
      exact h

theorem readPower_keeps (hk : nested.Keeps) (hn : nested.Finds room) {first : Expr}
    (h : Closes n tokens) : Keeps n (readPower source nested first tokens) :=
  ((primary_keeps hk hn).besideFrom h).bind fun _ _ _ hrest => readExponent_keeps hk hrest

theorem power_keeps (hk : nested.Keeps) (hn : nested.Finds room) : (power source nested).Keeps :=
  fun _ _ h => (primary_keeps hk hn _ _ h).bind fun _ _ _ hrest => readPower_keeps hk hn hrest

theorem readOperand_keeps (hk : nested.Keeps) {sign : Sign} {place : Span} (h : Closes n tokens) :
    Keeps n (readSigned.readOperand nested sign place tokens) := by
  refine (hk.power _ _ h).bind fun _ _ _ hrest => ?_
  cases sign <;> exact hrest

theorem unary_keeps (hk : nested.Keeps) (hn : nested.Finds room) (position : Position) :
    (unary source nested position).Keeps := by
  intro n tokens h
  change Keeps n (readUnary source nested position tokens)
  unfold readUnary
  split
  · exact power_keeps hk hn _ _ h
  · next t tokens =>
    split
    · exact power_keeps hk hn _ _ h
    · next sign ht =>
      obtain ⟨hopening, hclosing⟩ := not_parenthesis_of_sign? ht
      rw [closes_other_iff hopening hclosing] at h
      unfold readSigned
      split
      · split
        · exact readPower_keeps hk hn ((closes_other_iff (by simp) (by simp)).1 h)
        · exact readOperand_keeps hk h
      · exact readOperand_keeps hk h

theorem exponent_keeps (hk : nested.Keeps) (hn : nested.Finds room) (base : Span) :
    (exponent source nested base).Keeps := by
  intro n tokens h
  cases tokens with
  | nil => exact fun _ => by simp
  | cons t tokens =>
    change Keeps n (if _ then _ else _)
    by_cases ht : t.token.sign?.isSome || t.token.beginsOperand
    · rw [if_pos ht]
      exact unary_keeps hk hn .operand _ _ h
    · rw [if_neg ht]
      exact fun _ => by simp

theorem level_keeps (hk : nested.Keeps) (hn : nested.Finds room) (ops : List BinaryOp)
    (position : Position) : (level source nested ops position).Keeps := by
  induction ops generalizing position with
  | nil => exact unary_keeps hk hn position
  | cons op ops ih => exact (ih position).foldLeft (ih .operand) op

end

theorem nested_keeps (source : Text) (limit room : Nat) : (nested source limit room).Keeps := by
  induction room with
  | zero => constructor <;> intros <;> intro _ _ _ _ <;> simp
  | succ room ih =>
    have hn := nested_finds source limit room
    exact ⟨level_keeps ih hn additive .leading, power_keeps ih hn, exponent_keeps ih hn⟩

theorem expression_keeps (source : Text) (limit room : Nat) :
    (expression source (nested source limit room)).Keeps :=
  level_keeps (nested_keeps source limit room) (nested_finds source limit room) additive .leading

/-- Of a balanced list nothing is left once an expression is read. -/
theorem rest_eq_nil_of_balanced {source : Text} {limit room : Nat} {tokens rest : List Lexeme}
    {e : Expr} (h : Balanced tokens)
    (hrun : (expression source (nested source limit room)).run tokens = .ok (e, rest)) :
    rest = [] := by
  have hrest := expression_keeps source limit room _ _ h
  rw [hrun] at hrest
  cases rest with
  | nil => rfl
  | cons t rest =>
    obtain ⟨_, _, _, hfollow⟩ := expression_finds _ _ _ _ hrun
    obtain ⟨token, span⟩ := t
    obtain rfl : token = .closing := closing_of_mayPrecede (hfollow _ rfl)
    exact absurd hrest not_balanced_closing

/-! ### What is reported -/

theorem parse_eq_unmatchedParenthesis_iff {limits : Limits} {source text : Text}
    {tokens : List Lexeme} :
    parse limits source tokens = .error (.unmatchedParenthesis text) ↔
      operatorCount tokens ≤ limits.operators ∧
        ∃ span, unmatched? [] tokens = some span ∧ span.textFrom source = text := by
  rw [parse]
  by_cases hcount : limits.operators < operatorCount tokens
  · rw [if_pos hcount]
    constructor
    · intro h
      cases h
    · intro h
      omega
  · rw [if_neg hcount]
    cases hunmatched : unmatched? [] tokens with
    | some span => simp [Nat.le_of_not_lt hcount]
    | none =>
      constructor
      · intro h
        have hbalanced : Balanced tokens := unmatched?_eq_none_iff.1 hunmatched
        have hkeeps := expression_keeps source limits.nesting limits.nesting _ _ hbalanced
        rcases bind_eq_error.1 h with hrun | ⟨⟨e, rest⟩, hrun, h⟩
        · rw [hrun] at hkeeps
          exact absurd rfl (hkeeps text)
        · obtain rfl := rest_eq_nil_of_balanced hbalanced hrun
          cases h
      · rintro ⟨_, _, h, _⟩
        cases h

/-- Where the token of a cut stands in the source, and what is written before it. -/
theorem exists_text_of_cut {source : Text} {tokens : List Lexeme} {c : Cut}
    (hscan : scan source = .ok tokens) (hc : c ∈ cuts tokens) :
    ∃ front, source = front ++ c.lexeme.span.textFrom source ∧ scan front = .ok c.before ∧
      scanFrom front.byteLength (c.lexeme.span.textFrom source) = .ok (c.lexeme :: c.after) := by
  rw [mem_cuts.1 hc] at hscan
  obtain ⟨htiles, hapart⟩ := scanFrom_eq_ok_iff.1 hscan
  obtain ⟨front, back, rfl, hfront, hback⟩ := htiles.split
  rw [Nat.zero_add] at hback
  obtain ⟨hbefore, hafter⟩ := hapart.of_append
  have htext : c.lexeme.span.textFrom (front ++ back) = back := by
    rw [Span.textFrom, hback.start_eq, Text.dropBytes_append, Option.getD_some]
  rw [htext]
  exact ⟨front, rfl, scanFrom_eq_ok_iff.2 ⟨hfront, hbefore⟩, scanFrom_eq_ok_iff.2 ⟨hback, hafter⟩⟩

/-- The parser reports an unmatched parenthesis exactly if there is one and not too many operators,
and quotes the source from it on. Where there is none, no error is about parentheses, and an
expression that is found takes up the whole list. -/
theorem parse_unmatchedParenthesis (limits : Limits) {source : Text} {tokens : List Lexeme}
    (hscan : scan source = .ok tokens) :
    ((∃ text, parse limits source tokens = .error (.unmatchedParenthesis text)) ↔
      operatorCount tokens ≤ limits.operators ∧ ¬Balanced tokens) ∧
    (∀ text, parse limits source tokens = .error (.unmatchedParenthesis text) →
      ∃ (c : Cut) (front : Text), c.IsUnmatched tokens ∧ source = front ++ text ∧
        scan front = .ok c.before ∧
        scanFrom front.byteLength text = .ok (c.lexeme :: c.after)) ∧
    ∀ (source : Text) (limit room : Nat) (tokens : List Lexeme), Balanced tokens →
      match (expression source (nested source limit room)).run tokens with
      | .ok (_, rest) => rest = []
      | .error error => ∀ text, error ≠ .unmatchedParenthesis text := by
  refine ⟨?_, ?_, ?_⟩
  · have hbalanced : ¬Balanced tokens ↔ ∃ span, unmatched? [] tokens = some span := by
      rw [← Option.ne_none_iff_exists']
      exact not_congr (@unmatched?_eq_none_iff [] tokens).symm
    rw [hbalanced]
    constructor
    · rintro ⟨text, h⟩
      obtain ⟨hcount, span, hspan, _⟩ := parse_eq_unmatchedParenthesis_iff.1 h
      exact ⟨hcount, span, hspan⟩
    · rintro ⟨hcount, span, hspan⟩
      exact ⟨_, parse_eq_unmatchedParenthesis_iff.2 ⟨hcount, span, hspan, rfl⟩⟩
  · intro text h
    obtain ⟨_, span, hspan, rfl⟩ := parse_eq_unmatchedParenthesis_iff.1 h
    obtain ⟨c, rfl, hc⟩ := exists_isUnmatched hspan
    obtain ⟨front, hsource, hfront, hback⟩ := exists_text_of_cut hscan hc.1
    exact ⟨c, front, hc, hsource, hfront, hback⟩
  · intro source limit room tokens h
    have hkeeps := expression_keeps source limit room _ _ h
    split
    · next e rest hrun => exact rest_eq_nil_of_balanced h hrun
    · next error hrun =>
      rw [hrun] at hkeeps
      exact hkeeps

/-- The parenthesis before the minus was not opened. -/
theorem parse_unmatchedParenthesis_points : ∃ tokens,
    scan "(2))-3(".toList = .ok tokens ∧
    parse {} "(2))-3(".toList tokens = .error (.unmatchedParenthesis ")-3(".toList) ∧
    ∃ (c : Cut) (front : Text), c.IsUnmatched tokens ∧
      "(2))-3(".toList = front ++ ")-3(".toList ∧ scan front = .ok c.before := by
  let tokens : List Lexeme := [⟨.opening, ⟨0, 1⟩⟩, ⟨.number 2, ⟨1, 2⟩⟩, ⟨.closing, ⟨2, 3⟩⟩,
    ⟨.closing, ⟨3, 4⟩⟩, ⟨.operator .sub, ⟨4, 5⟩⟩, ⟨.number 3, ⟨5, 6⟩⟩, ⟨.opening, ⟨6, 7⟩⟩]
  have hscan : scan "(2))-3(".toList = .ok tokens := by decide +kernel
  have hcount : operatorCount tokens ≤ Limits.operators {} := by decide +kernel
  have hparse : parse {} "(2))-3(".toList tokens = .error (.unmatchedParenthesis ")-3(".toList) :=
    parse_eq_unmatchedParenthesis_iff.2 ⟨hcount, ⟨3, 4⟩, rfl, by decide +kernel⟩
  obtain ⟨c, front, hc, hsource, hfront, _⟩ := (parse_unmatchedParenthesis {} hscan).2.1 _ hparse
  exact ⟨_, hscan, hparse, c, front, hc, hsource, hfront⟩

end Calculator.Grammar
