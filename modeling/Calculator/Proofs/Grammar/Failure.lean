import Calculator.Proofs.Expr.Placement
import Calculator.Proofs.Grammar.Succession

/-! Errors of the parser. In a balanced list it is enough to look at neighbours to tell whether the
list is an expression. Main statement: the parser accepts a list exactly if it is read to its end
in this way, and else its error tells at which token, and after which kind of token, the reading
stopped. -/

namespace Calculator.Grammar

/-- The error for `unread`, whose first token is not expected, or for an end where none is. What
was read is written `before`, and `unread` is written `after`. -/
def Stage.Reports (stage : Stage) (unread : List Lexeme) (before after : Text)
    (error : ParseError) : Prop :=
  match stage, unread with
  | .complete, _ => False
  | .opened, ⟨.closing, _⟩ :: _ => error = .emptyGroup ['(', ')']
  | .raised, _ => ∃ base, error = .missingExponent (base ++ ['^']) ∧ base ++ ['^'] <:+ before
  | _, _ => error = .malformedNumber after

/-- The error is for the token at which `tokens` can be read no further. -/
def Stuck (source : Text) (stage : Stage) (tokens : List Lexeme) (error : ParseError) : Prop :=
  ∃ last unread before after, follow stage tokens = (last, unread) ∧ source = before ++ after ∧
    Tiles before.byteLength after unread ∧ last.Reports unread before after error

/-- If there is an error, it is for the token at which `tokens` can be read no further. -/
def Fails (source : Text) (stage : Stage) (tokens : List Lexeme) (found : Reading) : Prop :=
  ∀ {error}, found = .error error → Stuck source stage tokens error

/-- The list stands at the end of the source, and its parentheses match but for those that were
opened before. -/
structure Form.Ready (form : Form) (source : Text) (tokens : List Lexeme) : Prop where
  closes : ∃ n, Closes n tokens
  remain : ∃ before after, source = before ++ after ∧ form.Tiled before.byteLength after tokens

/-- The span ends in the `^` in front of the list. -/
def Quotes (source : Text) (span : Span) (tokens : List Lexeme) : Prop :=
  ∃ before after base, source = before ++ after ∧ Tiles before.byteLength after tokens ∧
    span.text source = base ++ ['^'] ∧ base ++ ['^'] <:+ before

section

variable {source : Text} {stage stage' : Stage} {t : Lexeme} {tokens used : List Lexeme}
  {error : ParseError} {form form' : Form}

/-- An error after a first token. -/
theorem Stuck.of_next (h : Stuck source stage' tokens error)
    (hnext : stage.next t.token = some stage') : Stuck source stage (t :: tokens) error := by
  obtain ⟨last, unread, before, after, hfollow, hrest⟩ := h
  exact ⟨last, unread, before, after, (follow_of_next hnext).trans hfollow, hrest⟩

/-- An error after a phrase. -/
theorem Stuck.of_phrase {room : Nat} {e : Expr} (h : Stuck source .complete tokens error)
    (hused : Phrase room form used e) (hstage : form.BeginsAt stage) :
    Stuck source stage (used ++ tokens) error := by
  obtain ⟨last, unread, before, after, hfollow, hrest⟩ := h
  exact ⟨last, unread, before, after, (hused.follow_append hstage tokens).trans hfollow, hrest⟩

/-- Two stages that expect the same of the list report the same errors, if they do so for the
list itself. -/
theorem Stuck.transfer (h : Stuck source stage tokens error)
    (hnext : ∀ t ∈ tokens.head?, stage.next t.token = stage'.next t.token)
    (hreports : ∀ before after, (∀ t ∈ tokens.head?, stage.next t.token = none) →
      stage.Reports tokens before after error → stage'.Reports tokens before after error) :
    Stuck source stage' tokens error := by
  obtain ⟨last, unread, before, after, hfollow, hsource, htiles, hlast⟩ := h
  cases tokens with
  | nil =>
    cases hfollow
    exact ⟨stage', [], before, after, rfl, hsource, htiles, hreports _ _ (by simp) hlast⟩
  | cons t tokens =>
    have hhead := hnext t rfl
    cases hstage : stage.next t.token with
    | none =>
      rw [follow_of_stuck hstage] at hfollow
      cases hfollow
      refine ⟨stage', _, before, after, follow_of_stuck (hhead ▸ hstage), hsource, htiles, ?_⟩
      exact hreports _ _ (by rintro _ ⟨⟩; exact hstage) hlast
    | some next =>
      rw [follow_of_next hstage] at hfollow
      refine ⟨last, unread, before, after, ?_, hsource, htiles, hlast⟩
      rwa [follow_of_next (hhead ▸ hstage)]

/-! ### Lists at the end of a source -/

theorem Closes.tail {n : Nat} (h : Closes n (t :: tokens)) : ∃ m, Closes m tokens := by
  obtain ⟨token, span⟩ := t
  cases token with
  | opening => exact ⟨n + 1, closes_opening_iff.1 h⟩
  | closing =>
    cases n with
    | zero => exact absurd h not_balanced_closing
    | succ n => exact ⟨n, closes_closing_iff.1 h⟩
  | _ => exact ⟨n, (closes_other_iff (by simp) (by simp)).1 h⟩

theorem Form.Ready.tail (h : form.Ready source (t :: tokens)) : form'.Ready source tokens := by
  obtain ⟨⟨n, hcloses⟩, before, after, rfl, htiled⟩ := h
  obtain ⟨a, b, rfl, _, hb⟩ := htiled.split (List.cons_ne_nil t [])
  refine ⟨Closes.tail hcloses, before ++ a, b, by simp, Form.tiled_of_tiles ?_⟩
  rwa [Text.byteLength_append]

theorem Form.Ready.rest (h : form.Ready source (used ++ tokens)) (hne : used ≠ []) :
    form'.Ready source tokens := by
  induction used generalizing form with
  | nil => exact absurd rfl hne
  | cons t used ih =>
    by_cases hused : used = []
    · rw [hused] at h
      exact h.tail
    · exact ih (show Form.power.Ready source (used ++ tokens) from h.tail) hused

theorem Form.Ready.signed {ops : List BinaryOp} {position : Position}
    (h : (Form.level ops position).Ready source tokens) : Form.power.Ready source tokens := by
  obtain ⟨hcloses, before, after, hsource, htiles⟩ := h
  exact ⟨hcloses, before, after, hsource, Tiles.signed htiles⟩

/-- A sign and the number after it as one number. -/
theorem Form.Ready.fuse {ops : List BinaryOp} {position : Position} {sign : Sign}
    {value : Float} {span : Span}
    (h : (Form.level ops position).Ready source (t :: ⟨.number value, span⟩ :: tokens))
    (ht : t.token.sign? = some sign) :
    Form.power.Ready source (⟨.number (sign.apply value), t.span.cover span⟩ :: tokens) := by
  obtain ⟨⟨n, hcloses⟩, before, after, hsource, htiles⟩ := h
  obtain ⟨hopening, hclosing⟩ := not_parenthesis_of_sign? ht
  rw [closes_other_iff hopening hclosing, closes_other_iff (by simp) (by simp)] at hcloses
  exact ⟨⟨n, (closes_other_iff (by simp) (by simp)).2 hcloses⟩, before, after, hsource,
    Tiles.fuse htiles ht⟩

/-- The first token cannot be the start of an operand. -/
theorem Form.Ready.stuck (h : form.Ready source (t :: tokens))
    (ht : t.token.beginsOperand = false) :
    Stuck source .signed (t :: tokens) (.malformedNumber (t.span.textFrom source)) := by
  obtain ⟨_, before, after, rfl, htiled⟩ := h
  have hnumber : t.token.isNumber = false := by
    cases hnumber : t.token <;> simp_all [Token.beginsOperand, Token.isNumber]
  have hnext : Stage.next .signed t.token = none := by
    cases hnext : t.token <;> simp_all [Token.beginsOperand, Stage.next]
  refine ⟨_, _, before, after, follow_of_stuck hnext, rfl, htiled.tiles hnumber, ?_⟩
  rw [Span.textFrom, htiled.start_eq, Text.dropBytes_append]
  rfl

end

/-! ### Errors of the parsers -/

/-- What holds of the errors of the parsers one level further in, where `room` is enough. -/
structure Nested.Fails (nested : Nested) (source : Text) (room : Nat) : Prop where
  expression {tokens : List Lexeme} : tokens.length < room →
    (Form.level additive .leading).Ready source tokens →
    Grammar.Fails source .operand tokens (nested.expression.run tokens)
  power {tokens : List Lexeme} : tokens.length < room → Form.power.Ready source tokens →
    Grammar.Fails source .signed tokens (nested.power.run tokens)
  exponent {base : Span} {tokens : List Lexeme} : tokens.length < room →
    (Form.level [] .operand).Ready source tokens → Quotes source base tokens →
    Grammar.Fails source .raised tokens ((nested.exponent base).run tokens)

section

variable {source : Text} {nested : Nested} {room : Nat}

/-- Whatever can follow an operand is part of the expression, but for a closing parenthesis. -/
theorem closing_of_mayPrecede {position : Position} {token : Token}
    (h : (Form.level additive position).MayPrecede token) : token = .closing := by
  obtain ⟨⟨hbegins, hpow⟩, hops⟩ := h
  cases token with
  | number | opening => cases hbegins
  | closing => rfl
  | operator op =>
    cases op with
    | pow => exact absurd rfl hpow
    | _ => exact absurd rfl (hops _ (by decide))

theorem stuck_emptyGroup {opened closed : Span} {tokens : List Lexeme}
    (h : Form.power.Ready source (⟨.opening, opened⟩ :: ⟨.closing, closed⟩ :: tokens)) :
    Stuck source .opened (⟨.closing, closed⟩ :: tokens)
      (.emptyGroup ((opened.cover closed).text source)) := by
  obtain ⟨_, before, after, rfl, htiled⟩ := h
  have htiles := htiled.tiles rfl
  cases htiles with
  | cons hopening htiles =>
    obtain rfl := hopening
    cases htiles with
    | @cons _ _ piece text _ hclosing htiles =>
      obtain rfl : piece = [')'] := hclosing
      have htext : (⟨before.byteLength, before.byteLength + Text.byteLength ['(', ')']⟩ : Span).text
          (before ++ ['(', ')'] ++ text) = ['(', ')'] := Span.text_append ..
      refine ⟨.opened, _, before ++ ['('], [')'] ++ text, rfl, by simp, ?_, ?_⟩
      · rw [Text.byteLength_append]
        exact .cons rfl htiles
      · rw [Span.cover_of_le (by simp) (by simp)]
        exact congrArg ParseError.emptyGroup (by simpa [Nat.add_assoc] using htext)

theorem readGroup_fails (hf : nested.Fails source room) (hn : nested.Finds room) {opened : Span}
    {tokens : List Lexeme} (h : Form.power.Ready source (⟨.opening, opened⟩ :: tokens))
    (hroom : tokens.length < room) :
    Fails source .opened tokens (readGroup source nested opened tokens) := by
  intro error herror
  obtain ⟨n, hcloses⟩ := h.closes
  rw [closes_opening_iff] at hcloses
  cases tokens with
  | nil => cases closes_nil_iff.1 hcloses
  | cons t tokens =>
    obtain ⟨token, span⟩ := t
    rw [readGroup] at herror
    split at herror
    · next ht =>
      obtain rfl : token = .closing := ht
      cases herror
      exact stuck_emptyGroup h
    · next ht =>
      rcases bind_eq_error.1 herror with herror | ⟨⟨inner, rest⟩, hinner, herror⟩
      · refine (hf.expression hroom h.tail herror).transfer ?_ ?_
        · exact fun t _ => Stage.next_eq Stage.allowsSign_operand Stage.allowsSign_opened t.token
        · intro before after _ hreports
          cases token with
          | closing => exact absurd rfl ht
          | _ => exact hreports
      · -- the group was read, so what follows it can only be the parenthesis that closes it
        obtain ⟨inside, hsplit, ⟨r, rfl, hinside⟩, hfollow⟩ := hn.expression _ hinner
        rw [hsplit, hinside.balanced.closes_append_iff] at hcloses
        cases rest with
        | nil => cases closes_nil_iff.1 hcloses
        | cons c rest =>
          simp [closing_of_mayPrecede (hfollow c rfl)] at herror
          cases herror

theorem readPrimary_fails (hf : nested.Fails source room) (hn : nested.Finds room)
    {tokens : List Lexeme} (h : Form.power.Ready source tokens) (hroom : tokens.length ≤ room) :
    Fails source .signed tokens (readPrimary source nested tokens) := by
  intro error herror
  unfold readPrimary at herror
  split at herror
  · cases herror
    exact ⟨.signed, [], source, [], rfl, by simp, .nil, rfl⟩
  · cases herror
  · exact (readGroup_fails hf hn h hroom herror).of_next rfl
  · next t tokens hnumber hopening =>
    cases herror
    refine h.stuck ?_
    obtain ⟨token, span⟩ := t
    cases token <;> simp_all [Token.beginsOperand]

/-- The stages that expect an operand expect the same where one begins. -/
theorem Stuck.of_beginsOperand {stage stage' : Stage} {t : Lexeme} {tokens : List Lexeme}
    {error : ParseError} (h : Stuck source stage (t :: tokens) error)
    (ht : t.token.beginsOperand) : Stuck source stage' (t :: tokens) error := by
  obtain ⟨token, span⟩ := t
  have hnext : ∃ next, ∀ stage : Stage, stage.next token = some next := by
    cases token with
    | number value => exact ⟨_, fun _ => Stage.next_number value⟩
    | opening => exact ⟨_, fun _ => Stage.next_opening⟩
    | _ => cases ht
  obtain ⟨next, hnext⟩ := hnext
  refine h.transfer ?_ ?_
  · rintro _ ⟨⟩
    rw [hnext, hnext]
  · intro before after hnone
    have := hnone _ rfl
    rw [hnext] at this
    cases this

theorem besideFrom_fails (hf : nested.Fails source room) (hn : nested.Finds room) {left : Expr}
    {tokens : List Lexeme} (h : Form.power.Ready source tokens) (hroom : tokens.length ≤ room) :
    Fails source .complete tokens ((primary source nested).besideFrom left tokens) := by
  intro error herror
  fun_induction Parser.besideFrom (primary source nested) left tokens with
  | case1 => cases herror
  | case2 left t tokens ht e hrun =>
    cases herror
    exact (readPrimary_fails hf hn h hroom hrun).of_beginsOperand ht
  | case3 left t tokens ht right rest hrun ih =>
    obtain ⟨used, hsplit, hused, _⟩ := readPrimary_finds hn _ hrun
    have hshorter := (primary source nested).shortens hrun
    rw [hsplit] at h ⊢
    exact (ih (h.rest hused.ne_nil) (by omega) herror).of_phrase hused trivial
  | case4 => cases herror

/-- A base with the `^` after it is what an error about the exponent shows. -/
theorem Phrase.quotes {base : Expr} {used rest : List Lexeme} {place : Span}
    (hbase : Phrase room .chain used base)
    (h : Form.power.Ready source (used ++ ⟨.operator .pow, place⟩ :: rest)) :
    Quotes source (base.span.cover place) rest := by
  obtain ⟨_, before, after, rfl, htiled⟩ := h
  obtain ⟨a, b, rfl, ha, hb⟩ := htiled.split hbase.ne_nil
  cases hb with
  | @cons _ _ piece text _ hpiece hrest =>
    obtain rfl : piece = ['^'] := hpiece
    have hholds : Text.Holds (before ++ (a ++ (['^'] ++ text))) before.byteLength (a ++ ['^']) :=
      ⟨before, text, by simp, rfl⟩
    obtain ⟨_, hbegins, hends⟩ := hbase.places ha hholds.left
    have hbegins : base.span.start = before.byteLength := hbegins
    refine ⟨before ++ a ++ ['^'], text, a, by simp, ?_, Span.Marks.text_eq ?_, before, by simp⟩
    · simpa [Nat.add_assoc] using hrest
    · rw [Span.cover_of_le (by dsimp only; omega) (by dsimp only; omega), hbegins]
      exact ⟨hholds, by simp [Nat.add_assoc]⟩

theorem readExponent_fails (hf : nested.Fails source room) {base : Expr} {used tokens : List Lexeme}
    (hbase : Phrase room .chain used base) (h : Form.power.Ready source (used ++ tokens))
    (hroom : tokens.length < room) :
    Fails source .complete tokens (readExponent nested base tokens) := by
  intro error herror
  cases tokens with
  | nil => cases herror
  | cons t tokens =>
    obtain ⟨token, place⟩ := t
    dsimp only [readExponent] at herror
    split at herror
    · next ht =>
      subst ht
      rcases bind_eq_error.1 herror with herror | ⟨_, _, herror⟩
      · refine (hf.exponent (by simp at hroom; omega) ?_ (hbase.quotes h) herror).of_next rfl
        exact (show Form.power.Ready source _ from h.rest hbase.ne_nil).tail
      · cases herror
    · cases herror

theorem power_fails (hf : nested.Fails source room) (hn : nested.Finds room) {tokens : List Lexeme}
    (h : Form.power.Ready source tokens) (hroom : tokens.length ≤ room) :
    Fails source .signed tokens ((power source nested).run tokens) := by
  intro error herror
  rcases bind_eq_error.1 herror with herror | ⟨⟨first, rest₁⟩, hfirst, hafter⟩
  · exact readPrimary_fails hf hn h hroom herror
  · obtain ⟨used₁, rfl, hphrase₁, _⟩ := readPrimary_finds hn _ hfirst
    have hlt := List.length_pos_iff.2 hphrase₁.ne_nil
    simp only [List.length_append] at hroom
    rcases bind_eq_error.1 hafter with herror | ⟨⟨base, rest₂⟩, hbase, hexponent⟩
    · exact (besideFrom_fails hf hn (h.rest hphrase₁.ne_nil) (by omega) herror).of_phrase hphrase₁
        trivial
    · obtain ⟨used₂, rfl, hphrase₂, _⟩ := besideFrom_finds hn hphrase₁.single _ hbase
      simp only [List.length_append] at hroom
      rw [← List.append_assoc] at h ⊢
      exact (readExponent_fails hf hphrase₂ h (by omega) hexponent).of_phrase hphrase₂ trivial

theorem readOperand_fails (hf : nested.Fails source room) {sign : Sign} {place : Span}
    {tokens : List Lexeme} (h : Form.power.Ready source tokens) (hroom : tokens.length < room) :
    Fails source .signed tokens (readSigned.readOperand nested sign place tokens) := by
  intro error herror
  rcases bind_eq_error.1 herror with herror | ⟨_, _, herror⟩
  · exact hf.power hroom h herror
  · cases sign <;> cases herror

theorem unary_fails (hf : nested.Fails source room) (hn : nested.Finds room) {position : Position}
    {tokens : List Lexeme} (h : (Form.level [] position).Ready source tokens)
    (hroom : tokens.length ≤ room) :
    Fails source .operand tokens ((unary source nested position).run tokens) := by
  -- without a sign, an operand is expected as it is after one
  have hpower (hsign : ∀ t ∈ tokens.head?, t.token.sign? = none) :
      Fails source .operand tokens ((power source nested).run tokens) := by
    intro error herror
    refine (power_fails hf hn h.signed hroom herror).transfer ?_ ?_
    · intro t ht
      exact Stage.next_signed_eq Stage.allowsSign_operand (hsign t ht)
    · exact fun _ _ _ hreports => hreports
  intro error herror
  simp only [unary] at herror
  unfold readUnary at herror
  split at herror
  · exact hpower (by simp) herror
  · next t tokens =>
    split at herror
    · next ht => exact hpower (by rintro _ ⟨⟩; exact ht) herror
    · next sign ht =>
      refine Stuck.of_next ?_ (Stage.next_sign Stage.allowsSign_operand ht)
      simp only [List.length_cons] at hroom
      unfold readSigned at herror
      split at herror
      · next value span tokens =>
        split at herror
        · -- reading on after a literal is reading a power that begins with the number
          have herror : (power source nested).run
              (⟨.number (sign.apply value), t.span.cover span⟩ :: tokens) = .error error := herror
          obtain ⟨last, unread, before, after, hfollow, hrest⟩ :=
            power_fails hf hn (h.fuse ht) (by simpa using Nat.le_of_succ_le hroom) herror
          exact ⟨last, unread, before, after, by simpa using hfollow, hrest⟩
        · exact readOperand_fails hf h.tail hroom herror
      · exact readOperand_fails hf h.tail hroom herror

theorem exponent_fails (hf : nested.Fails source room) (hn : nested.Finds room) {base : Span}
    {tokens : List Lexeme} (h : (Form.level [] .operand).Ready source tokens)
    (hroom : tokens.length ≤ room) (hquotes : Quotes source base tokens) :
    Fails source .raised tokens ((exponent source nested base).run tokens) := by
  intro error herror
  obtain ⟨before, after, text, hsource, htiles, htext, hsuffix⟩ := hquotes
  simp only [exponent] at herror
  split at herror
  · cases herror
    exact ⟨.raised, [], before, after, rfl, hsource, htiles, text, by rw [htext], hsuffix⟩
  · next t tokens =>
    split at herror
    · next ht =>
      refine (unary_fails hf hn h hroom herror).transfer ?_ ?_
      · exact fun t _ => Stage.next_eq Stage.allowsSign_operand Stage.allowsSign_raised t.token
      · intro before after hnone
        rw [← Stage.isSome_next Stage.allowsSign_operand, hnone t rfl] at ht
        cases ht
    · next ht =>
      cases herror
      rw [← Stage.isSome_next Stage.allowsSign_raised,
        Option.not_isSome_iff_eq_none] at ht
      exact ⟨.raised, _, before, after, follow_of_stuck ht, hsource, htiles, text, by rw [htext],
        hsuffix⟩

theorem foldFrom_fails {operand : Parser} {op : BinaryOp} {ops : List BinaryOp} (hop : op ≠ .pow)
    (hfinds : ∀ tokens, Finds (Phrase room (.level ops .operand))
      (Form.level ops .operand).MayPrecede tokens (operand.run tokens))
    (hfails : ∀ {tokens}, (Form.level ops .operand).Ready source tokens → tokens.length ≤ room →
      Fails source .operand tokens (operand.run tokens))
    {left : Expr} {tokens : List Lexeme} (h : (Form.level ops .operand).Ready source tokens)
    (hroom : tokens.length ≤ room) :
    Fails source .complete tokens (operand.foldFrom op left tokens) := by
  intro error herror
  have hnext {t : Lexeme} (ht : t.token = .operator op) :
      Stage.next .complete t.token = some .operand := by
    rw [ht]
    cases op with
    | pow => exact absurd rfl hop
    | _ => rfl
  fun_induction Parser.foldFrom operand op left tokens with
  | case1 => cases herror
  | case2 left t tokens ht e hrun =>
    cases herror
    exact (hfails h.tail (Nat.le_of_succ_le hroom) hrun).of_next (hnext ht)
  | case3 left t tokens ht right rest hrun ih =>
    obtain ⟨used, rfl, hused, _⟩ := hfinds _ hrun
    have hafter : (Form.level ops .operand).Ready source (used ++ rest) := h.tail
    simp only [List.length_cons, List.length_append] at hroom
    have hstuck := ih (hafter.rest hused.ne_nil) (by omega) herror
    exact (hstuck.of_phrase hused Stage.allowsSign_operand).of_next (hnext ht)
  | case4 => cases herror

theorem level_fails (hf : nested.Fails source room) (hn : nested.Finds room) {ops : List BinaryOp}
    (hops : .pow ∉ ops) {position : Position} {tokens : List Lexeme}
    (h : (Form.level ops position).Ready source tokens) (hroom : tokens.length ≤ room) :
    Fails source .operand tokens ((level source nested ops position).run tokens) := by
  induction ops generalizing position tokens with
  | nil => exact unary_fails hf hn h hroom
  | cons op ops ih =>
    rw [List.mem_cons, not_or] at hops
    intro error herror
    rcases bind_eq_error.1 herror with herror | ⟨⟨left, rest⟩, hleft, hafter⟩
    · exact ih hops.2 ⟨h.closes, h.remain⟩ hroom herror
    · obtain ⟨used, rfl, hused, _⟩ := level_finds hn ops position _ hleft
      simp only [List.length_append] at hroom
      have hstuck := foldFrom_fails (Ne.symm hops.1) (level_finds hn ops .operand)
        (fun h hroom => ih hops.2 h hroom) (h.rest hused.ne_nil) (by omega) hafter
      exact hstuck.of_phrase hused Stage.allowsSign_operand

end

theorem nested_fails (source : Text) (limit room : Nat) :
    (nested source limit room).Fails source room := by
  induction room with
  | zero => constructor <;> intros <;> omega
  | succ room ih =>
    have hfinds := nested_finds source limit room
    constructor
    · intro tokens hroom h
      exact level_fails ih hfinds (by decide) h (Nat.le_of_lt_succ hroom)
    · intro tokens hroom h
      exact power_fails ih hfinds h (Nat.le_of_lt_succ hroom)
    · intro base tokens hroom h hquotes
      exact exponent_fails ih hfinds h (Nat.le_of_lt_succ hroom) hquotes

/-! ### Whole lists -/

theorem Stuck.not_complete {source : Text} {tokens : List Lexeme} {error : ParseError}
    (h : Stuck source .operand tokens error) : follow .operand tokens ≠ (.complete, []) := by
  obtain ⟨last, unread, before, after, hfollow, _, _, hreports⟩ := h
  rw [hfollow]
  rintro ⟨⟩
  exact hreports

/-- The parser takes a balanced list that is within the limits, or it is stuck. -/
theorem parse_or_stuck {limits : Limits} {source : Text} {tokens : List Lexeme}
    (hscan : scan source = .ok tokens) (hbalanced : Balanced tokens)
    (hoperators : operatorCount tokens ≤ limits.operators)
    (hnesting : tokens.length ≤ limits.nesting) :
    (∃ e, parse limits source tokens = .ok e ∧ follow .operand tokens = (.complete, [])) ∨
    ∃ error, parse limits source tokens = .error error ∧ Stuck source .operand tokens error := by
  have hmatched : unmatched? [] tokens = none := unmatched?_eq_none_iff.2 hbalanced
  rw [parse, if_neg (Nat.not_lt.2 hoperators), hmatched]
  dsimp only
  cases hrun : (expression source (nested source limits.nesting limits.nesting)).run tokens with
  | error error =>
    have hready : (Form.level additive .leading).Ready source tokens :=
      ⟨⟨0, hbalanced⟩, [], source, rfl, (scanFrom_eq_ok_iff.1 hscan).1⟩
    exact .inr ⟨error, rfl, level_fails (nested_fails ..) (nested_finds ..) (by decide) hready
      hnesting hrun⟩
  | ok found =>
    obtain ⟨e, rest⟩ := found
    obtain ⟨used, rfl, hused, hfollow⟩ := expression_finds _ _ _ _ hrun
    cases rest with
    | nil => exact .inl ⟨e, rfl, hused.follow_append Stage.allowsSign_operand []⟩
    | cons t rest =>
      have hclosing := closing_of_mayPrecede (hfollow t rfl)
      obtain ⟨token, span⟩ := t
      obtain rfl : token = .closing := hclosing
      exact absurd (hused.balanced.closes_append_iff.1 hbalanced) not_balanced_closing

/-- The pieces before and after are told by where the tokens after begin. -/
theorem append_inj_of_tiles {a b before after : Text} {unread : List Lexeme}
    (hsource : a ++ b = before ++ after) (hb : Tiles a.byteLength b unread)
    (hafter : Tiles before.byteLength after unread) : a = before ∧ b = after := by
  cases unread with
  | nil =>
    cases hb
    cases hafter
    exact ⟨by simpa using hsource, rfl⟩
  | cons t unread =>
    exact Text.append_inj_of_byteLength hsource (hb.start_eq.symm.trans hafter.start_eq)

/-- A balanced list of few enough tokens is parsed exactly if each of them may follow the one before
it. Otherwise the error tells where the first one is that may not, and what it comes after. -/
theorem parse_iff_follow {limits : Limits} {source : Text} {tokens : List Lexeme}
    (hscan : scan source = .ok tokens) (hbalanced : Balanced tokens)
    (hoperators : operatorCount tokens ≤ limits.operators)
    (hnesting : tokens.length ≤ limits.nesting) :
    ((∃ e, parse limits source tokens = .ok e) ↔ follow .operand tokens = (.complete, [])) ∧
    ∀ last unread, follow .operand tokens = (last, unread) → (last, unread) ≠ (.complete, []) →
      ∃ read before after error, tokens = read ++ unread ∧ source = before ++ after ∧
        scan before = .ok read ∧ scanFrom before.byteLength after = .ok unread ∧
        parse limits source tokens = .error error ∧ last.Reports unread before after error := by
  rcases parse_or_stuck hscan hbalanced hoperators hnesting with
    ⟨e, hparse, hfollow⟩ | ⟨error, hparse, hstuck⟩
  · refine ⟨⟨fun _ => hfollow, fun _ => ⟨e, hparse⟩⟩, ?_⟩
    intro last unread heq hne
    exact absurd (heq.symm.trans hfollow) hne
  · refine ⟨⟨?_, fun hfollow => absurd hfollow hstuck.not_complete⟩, ?_⟩
    · rintro ⟨e, heq⟩
      rw [hparse] at heq
      cases heq
    · intro last unread hfollow hne
      obtain ⟨last', unread', before, after, hfollow', rfl, htiles, hreports⟩ := hstuck
      rw [hfollow] at hfollow'
      cases hfollow'
      obtain ⟨read, hread⟩ := follow_suffix .operand tokens
      rw [hfollow] at hread
      subst hread
      obtain ⟨hall, hapart⟩ := scanFrom_eq_ok_iff.1 hscan
      obtain ⟨hleft, hright⟩ := hapart.of_append
      obtain ⟨a, b, hsource, ha, hb⟩ := hall.split
      rw [Nat.zero_add] at hb
      obtain ⟨rfl, rfl⟩ := append_inj_of_tiles hsource.symm hb htiles
      exact ⟨read, a, b, error, rfl, rfl, scanFrom_eq_ok_iff.2 ⟨ha, hleft⟩,
        scanFrom_eq_ok_iff.2 ⟨hb, hright⟩, hparse, hreports⟩

/-- In the group nothing usable follows the `^`. -/
theorem parse_iff_follow_power : ∃ tokens read before after error,
    scan "2+(3^)".toList = .ok tokens ∧ "2+(3^)".toList = before ++ after ∧
    scan before = .ok read ∧ parse {} "2+(3^)".toList tokens = .error error ∧
    Stage.Reports .raised [⟨.closing, ⟨5, 6⟩⟩] before after error := by
  have hscan : scan "2+(3^)".toList = .ok [⟨.number 2, ⟨0, 1⟩⟩, ⟨.operator .add, ⟨1, 2⟩⟩,
      ⟨.opening, ⟨2, 3⟩⟩, ⟨.number 3, ⟨3, 4⟩⟩, ⟨.operator .pow, ⟨4, 5⟩⟩, ⟨.closing, ⟨5, 6⟩⟩] := by
    decide +kernel
  obtain ⟨read, before, after, error, _, hsource, hbefore, _, hparse, hreports⟩ :=
    (parse_iff_follow hscan (unmatched?_eq_none_iff.1 (show unmatched? [] _ = none from rfl))
      (show _ ≤ Limits.operators {} by decide) (show _ ≤ Limits.nesting {} by decide)).2
      .raised [⟨.closing, ⟨5, 6⟩⟩] rfl (by simp)
  exact ⟨_, read, before, after, error, hscan, hsource, hbefore, hparse, hreports⟩

end Calculator.Grammar
