import Calculator.Proofs.Token.Cut

/-! Parentheses and their partners. Main statement: what `unmatched?` finds is the first closing
parenthesis before which all that were opened are closed again, or else the last opening one that
is never closed. -/

namespace Calculator

/-- The list goes on to close the parenthesis that was opened last before it. -/
def Closed (tokens : List Lexeme) : Prop :=
  ∃ inside span rest, tokens = inside ++ ⟨.closing, span⟩ :: rest ∧ Balanced inside

namespace Cut

/-- An opening parenthesis that is not closed. -/
def IsOpen (c : Cut) : Prop := c.lexeme.token = .opening ∧ ¬Closed c.after

/-- A closing parenthesis before which all that were opened are closed. -/
def IsStray (c : Cut) : Prop := c.lexeme.token = .closing ∧ ∀ d ∈ cuts c.before, ¬d.IsOpen

/-- The first stray parenthesis of the list, or the last open one if none is stray. -/
def IsUnmatched (tokens : List Lexeme) (c : Cut) : Prop :=
  c ∈ cuts tokens ∧
    (c.IsStray ∧ (∀ d ∈ cuts tokens, d.IsStray → c.before.length ≤ d.before.length) ∨
      c.IsOpen ∧ (∀ d ∈ cuts tokens, ¬d.IsStray) ∧
        ∀ d ∈ cuts tokens, d.IsOpen → d.before.length ≤ c.before.length)

end Cut

/-! ### What is closed -/

section

variable {n : Nat} {tokens : List Lexeme}

/-- A list that closes more than it opens, up to where it first does so. -/
theorem Closes.exists_closing (h : Closes (n + 1) tokens) :
    ∃ inside span rest, tokens = inside ++ ⟨.closing, span⟩ :: rest ∧ Balanced inside ∧
      Closes n rest := by
  induction hlength : tokens.length using Nat.strongRecOn generalizing n tokens with
  | ind m ih =>
    cases tokens with
    | nil => cases closes_nil_iff.1 h
    | cons t tokens =>
      obtain ⟨token, span⟩ := t
      rw [List.length_cons] at hlength
      by_cases hclosing : token = .closing
      · subst hclosing
        exact ⟨[], span, tokens, rfl, closes_nil_iff.2 rfl, closes_closing_iff.1 h⟩
      by_cases hopening : token = .opening
      · -- past the group that is opened here, the search goes on
        subst hopening
        obtain ⟨first, closed, rest, rfl, hfirst, hrest⟩ :=
          ih tokens.length (by omega) (closes_opening_iff.1 h) rfl
        rw [List.length_append, List.length_cons] at hlength
        obtain ⟨second, place, rest, rfl, hsecond, hrest⟩ := ih rest.length (by omega) hrest rfl
        exact ⟨_ ++ second, place, rest, by simp, (hfirst.enclose span closed).append hsecond, hrest⟩
      · rw [closes_other_iff hopening hclosing] at h
        obtain ⟨inside, place, rest, rfl, hinside, hrest⟩ := ih tokens.length (by omega) h rfl
        exact ⟨_ :: inside, place, rest, rfl, (closes_other_iff hopening hclosing).2 hinside, hrest⟩

/-- A list that closes what it opens leaves nothing open. -/
theorem Closes.not_isOpen (h : Closes n tokens) : ∀ c ∈ cuts tokens, ¬c.IsOpen := by
  rintro ⟨before, ⟨token, span⟩, after⟩ hc ⟨hopening, hclosed⟩
  obtain rfl : token = .opening := hopening
  have hsplit : tokens = before ++ ⟨.opening, span⟩ :: after := mem_cuts.1 hc
  have hbefore := h.never_more before _ hsplit
  have hafter : Closes (openings before + n - closings before + 1) after := by
    rw [hsplit] at h
    refine closes_opening_iff.1 ((closes_append_iff (fun front back heq => ?_) (by omega)).1 h)
    exact h.never_more front (back ++ ⟨.opening, span⟩ :: after) (by simp [heq])
  obtain ⟨inside, place, rest, heq, hinside, _⟩ := hafter.exists_closing
  exact hclosed ⟨inside, place, rest, heq, hinside⟩

/-- Where nothing is left open, at least as many are closed as opened. -/
theorem openings_le_closings (h : ∀ c ∈ cuts tokens, ¬c.IsOpen) :
    openings tokens ≤ closings tokens := by
  have hsuffix (front : List Lexeme) {back : List Lexeme} (h : ∀ c ∈ cuts (front ++ back), ¬c.IsOpen) :
      ∀ c ∈ cuts back, ¬c.IsOpen := by
    intro c hc
    refine h { c with before := front ++ c.before } (mem_cuts.2 ?_)
    rw [mem_cuts.1 hc, List.append_assoc]
  induction hlength : tokens.length using Nat.strongRecOn generalizing tokens with
  | ind m ih =>
    cases tokens with
    | nil => exact Nat.le_refl _
    | cons t tokens =>
      rw [List.length_cons] at hlength
      by_cases hopening : t.token = .opening
      · have hclosed : Closed tokens := by
          have := h ⟨[], t, tokens⟩ (mem_cuts.2 rfl)
          simpa [Cut.IsOpen, hopening] using this
        obtain ⟨inside, span, rest, rfl, hinside⟩ := hclosed
        rw [List.length_append, List.length_cons] at hlength
        have hrest : ∀ c ∈ cuts rest, ¬c.IsOpen :=
          hsuffix (t :: (inside ++ [⟨.closing, span⟩])) (by simpa using h)
        have hle := ih rest.length (by omega) hrest rfl
        have hin := hinside.in_all
        simp [hopening]
        omega
      · have hle := ih tokens.length (by omega) (hsuffix [t] h) rfl
        rw [openings_cons, closings_cons, if_neg hopening]
        omega

/-- A stray parenthesis is one more than was opened. -/
theorem Cut.IsStray.lt_closings {c : Cut} (h : c.IsStray) :
    openings (c.before ++ [c.lexeme]) < closings (c.before ++ [c.lexeme]) := by
  have := openings_le_closings h.2
  simp [h.1]
  omega

end

/-! ### What is found -/

/-- The list closes no more than it opens and `n` parentheses, but may leave some open. -/
def Opens (n : Nat) (tokens : List Lexeme) : Prop := ∃ closers, Closes n (tokens ++ closers)

theorem opens_nil (n : Nat) : Opens n [] := by
  refine ⟨List.replicate n ⟨.closing, ⟨0, 0⟩⟩, ?_⟩
  induction n with
  | zero => exact closes_nil_iff.2 rfl
  | succ n ih => exact closes_closing_iff.2 ih

theorem Opens.never_more {n : Nat} {tokens : List Lexeme} (h : Opens n tokens)
    (front back : List Lexeme) (hsplit : tokens = front ++ back) :
    closings front ≤ openings front + n := by
  obtain ⟨closers, hcloses⟩ := h
  exact hcloses.never_more front (back ++ closers) (by rw [hsplit, List.append_assoc])

/-- Where a parenthesis without a partner is: a closing one, an opening one, or one of those that
were open from the start. -/
theorem unmatched?_eq_some {opened : List Span} {tokens : List Lexeme} {span : Span}
    (h : unmatched? opened tokens = some span) :
    (∃ before after, tokens = before ++ ⟨.closing, span⟩ :: after ∧
      Closes opened.length before) ∨
    (∃ before after, tokens = before ++ ⟨.opening, span⟩ :: after ∧
      Opens opened.length before ∧ Balanced after) ∨
    ∃ newer older, opened = newer ++ span :: older ∧ Closes newer.length tokens := by
  fun_induction unmatched? opened tokens with
  | case1 opened =>
    obtain ⟨older, rfl⟩ := List.head?_eq_some_iff.1 h
    exact .inr (.inr ⟨[], older, rfl, closes_nil_iff.2 rfl⟩)
  | case2 opened place tokens ih =>
    rcases ih h with ⟨before, after, rfl, hbefore⟩ | ⟨before, after, rfl, ⟨closers, hopens⟩, hafter⟩ |
      ⟨newer, older, heq, hcloses⟩
    · exact .inl ⟨_ :: before, after, rfl, closes_opening_iff.2 hbefore⟩
    · exact .inr (.inl ⟨_ :: before, after, rfl, ⟨closers, closes_opening_iff.2 hopens⟩, hafter⟩)
    · cases newer with
      | nil =>
        cases heq
        exact .inr (.inl ⟨[], tokens, rfl, opens_nil _, hcloses⟩)
      | cons s newer =>
        cases heq
        exact .inr (.inr ⟨newer, older, rfl, closes_opening_iff.2 hcloses⟩)
  | case3 place tokens =>
    cases h
    exact .inl ⟨[], tokens, rfl, closes_nil_iff.2 rfl⟩
  | case4 s opened place tokens ih =>
    rcases ih h with ⟨before, after, rfl, hbefore⟩ | ⟨before, after, rfl, ⟨closers, hopens⟩, hafter⟩ |
      ⟨newer, older, rfl, hcloses⟩
    · exact .inl ⟨_ :: before, after, rfl, closes_closing_iff.2 hbefore⟩
    · exact .inr (.inl ⟨_ :: before, after, rfl, ⟨closers, closes_closing_iff.2 hopens⟩, hafter⟩)
    · exact .inr (.inr ⟨s :: newer, older, rfl, closes_closing_iff.2 hcloses⟩)
  | case5 opened t tokens hopening hclosing₁ hclosing₂ ih =>
    have hother (n : Nat) (rest : List Lexeme) : Closes n (t :: rest) ↔ Closes n rest := by
      refine closes_other_iff (fun ht => hopening t.span (by rw [← ht])) fun ht => ?_
      cases opened with
      | nil => exact hclosing₁ t.span rfl (by rw [← ht])
      | cons s opened => exact hclosing₂ s opened t.span rfl (by rw [← ht])
    rcases ih h with ⟨before, after, rfl, hbefore⟩ | ⟨before, after, rfl, ⟨closers, hopens⟩, hafter⟩ |
      ⟨newer, older, rfl, hcloses⟩
    · exact .inl ⟨t :: before, after, rfl, (hother _ _).2 hbefore⟩
    · exact .inr (.inl ⟨t :: before, after, rfl, ⟨closers, (hother _ _).2 hopens⟩, hafter⟩)
    · exact .inr (.inr ⟨newer, older, rfl, (hother _ _).2 hcloses⟩)

/-- Two cuts of a list where the one is further to the front. -/
theorem exists_between {tokens : List Lexeme} {c d : Cut} (hc : c ∈ cuts tokens)
    (hd : d ∈ cuts tokens) (h : c.before.length < d.before.length) :
    ∃ between, d.before = c.before ++ c.lexeme :: between ∧
      c.after = between ++ d.lexeme :: d.after := by
  have hsplit := (mem_cuts.1 hc).symm.trans (mem_cuts.1 hd)
  rcases List.append_eq_append_iff.1 hsplit with ⟨front, hbefore, hafter⟩ | ⟨back, hbefore, _⟩
  · cases front with
    | nil => simp [hbefore] at h
    | cons t front =>
      obtain ⟨rfl, hrest⟩ := List.cons.inj hafter
      exact ⟨front, hbefore, hrest⟩
  · have := congrArg List.length hbefore
    rw [List.length_append] at this
    omega

theorem isUnmatched_closing {before after : List Lexeme} {span : Span} (h : Balanced before) :
    Cut.IsUnmatched (before ++ ⟨.closing, span⟩ :: after) ⟨before, ⟨.closing, span⟩, after⟩ := by
  refine ⟨mem_cuts.2 rfl, .inl ⟨⟨rfl, h.not_isOpen⟩, fun d hd hstray => ?_⟩⟩
  refine Nat.le_of_not_lt fun hlt => ?_
  obtain ⟨between, heq, _⟩ := exists_between hd (mem_cuts.2 rfl) hlt
  have hle := h.never_more (d.before ++ [d.lexeme]) between (by simp [← heq])
  have := hstray.lt_closings
  omega

theorem isUnmatched_opening {before after : List Lexeme} {span : Span} (hbefore : Opens 0 before)
    (hafter : Balanced after) :
    Cut.IsUnmatched (before ++ ⟨.opening, span⟩ :: after) ⟨before, ⟨.opening, span⟩, after⟩ := by
  have hc : (⟨before, ⟨.opening, span⟩, after⟩ : Cut) ∈
    cuts (before ++ ⟨.opening, span⟩ :: after) := mem_cuts.2 rfl
  refine ⟨hc, .inr ⟨⟨rfl, ?_⟩, fun d hd hstray => ?_, fun d hd hopen => ?_⟩⟩
  · rintro ⟨inside, place, rest, rfl, hinside⟩
    have hle := hafter.never_more (inside ++ [⟨.closing, place⟩]) rest (by simp)
    have := hinside.in_all
    simp at hle
    omega
  · -- up to a stray one more would be closed than opened, wherever it stands
    have hmore := hstray.lt_closings
    rcases Nat.lt_trichotomy d.before.length before.length with hlt | heq | hlt
    · obtain ⟨between, heq, _⟩ := exists_between hd hc hlt
      have hle := hbefore.never_more (d.before ++ [d.lexeme]) between
        (by rw [show before = _ from heq]; simp)
      omega
    · obtain ⟨_, heq⟩ := List.append_inj (mem_cuts.1 hd).symm heq
      have hclosing := hstray.1
      rw [(List.cons.inj heq).1] at hclosing
      cases hclosing
    · obtain ⟨between, heq, hrest⟩ := exists_between hc hd hlt
      have hfront := hbefore.never_more before [] (List.append_nil _).symm
      have hback := hafter.never_more (between ++ [d.lexeme]) d.after
        (by rw [show after = _ from hrest]; simp)
      rw [heq] at hmore
      simp at hmore hback
      omega
  · refine Nat.le_of_not_lt fun hlt => ?_
    obtain ⟨between, _, hrest⟩ := exists_between hc hd hlt
    exact hafter.not_isOpen ⟨between, d.lexeme, d.after⟩ (mem_cuts.2 hrest) hopen

/-- The parenthesis that `unmatched?` finds. -/
theorem exists_isUnmatched {tokens : List Lexeme} {span : Span}
    (h : unmatched? [] tokens = some span) :
    ∃ c : Cut, c.lexeme.span = span ∧ c.IsUnmatched tokens := by
  rcases unmatched?_eq_some h with ⟨before, after, rfl, hbefore⟩ |
    ⟨before, after, rfl, hbefore, hafter⟩ | ⟨newer, older, heq, _⟩
  · exact ⟨_, rfl, isUnmatched_closing hbefore⟩
  · exact ⟨_, rfl, isUnmatched_opening hbefore hafter⟩
  · simp at heq

end Calculator
