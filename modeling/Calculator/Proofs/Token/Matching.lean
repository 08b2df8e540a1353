import Calculator.Token.Balance

/-! Matching parentheses. Token lists are compared by how many parentheses they open and close up
to each point. Main statement: `unmatched?` finds nothing exactly in balanced lists. -/

namespace Calculator

def openings (tokens : List Lexeme) : Nat := tokens.countP (·.token = .opening)

def closings (tokens : List Lexeme) : Nat := tokens.countP (·.token = .closing)

@[simp] theorem openings_append (a b : List Lexeme) :
    openings (a ++ b) = openings a + openings b := List.countP_append

@[simp] theorem closings_append (a b : List Lexeme) :
    closings (a ++ b) = closings a + closings b := List.countP_append

@[simp] theorem openings_cons (t : Lexeme) (tokens : List Lexeme) :
    openings (t :: tokens) = openings tokens + if t.token = .opening then 1 else 0 := by
  simp [openings, List.countP_cons]

@[simp] theorem closings_cons (t : Lexeme) (tokens : List Lexeme) :
    closings (t :: tokens) = closings tokens + if t.token = .closing then 1 else 0 := by
  simp [closings, List.countP_cons]

@[simp] theorem openings_nil : openings [] = 0 := rfl

@[simp] theorem closings_nil : closings [] = 0 := rfl

/-- The list closes what it opens and `n` parentheses more, and at no point more than that. -/
structure Closes (n : Nat) (tokens : List Lexeme) : Prop where
  never_more (front back : List Lexeme) : tokens = front ++ back →
    closings front ≤ openings front + n
  in_all : closings tokens = openings tokens + n

/-- Each parenthesis has its partner. -/
abbrev Balanced (tokens : List Lexeme) : Prop := Closes 0 tokens

theorem closes_nil_iff {n : Nat} : Closes n [] ↔ n = 0 := by
  constructor
  · intro h
    simpa using h.in_all.symm
  · rintro rfl
    refine ⟨fun front back hsplit => ?_, rfl⟩
    obtain ⟨rfl, rfl⟩ := List.nil_eq_append_iff.1 hsplit
    simp

/-- Past a front that never closes more than the list may, what is left has to close the rest. -/
theorem closes_append_iff {n m : Nat} {a b : List Lexeme}
    (hfront : ∀ front back : List Lexeme, a = front ++ back → closings front ≤ openings front + n)
    (hm : closings a + m = openings a + n) : Closes n (a ++ b) ↔ Closes m b := by
  constructor
  · intro h
    refine ⟨fun front back hsplit => ?_, ?_⟩
    · have := h.never_more (a ++ front) back (by simp [hsplit])
      simp only [openings_append, closings_append] at this
      omega
    · have := h.in_all
      simp only [openings_append, closings_append] at this
      omega
  · intro h
    refine ⟨fun front back hsplit => ?_, ?_⟩
    · rcases List.append_eq_append_iff.1 hsplit with ⟨front', rfl, hb⟩ | ⟨back', ha, _⟩
      · have := h.never_more _ _ hb
        simp only [openings_append, closings_append]
        omega
      · exact hfront _ _ ha
    · have := h.in_all
      simp only [openings_append, closings_append]
      omega

/-- One token in front of a list. -/
theorem closes_cons_iff {n m : Nat} {t : Lexeme} {tokens : List Lexeme}
    (hn : t.token = .closing → 0 < n)
    (hm : (if t.token = .closing then 1 else 0) + m = (if t.token = .opening then 1 else 0) + n) :
    Closes n (t :: tokens) ↔ Closes m tokens := by
  refine closes_append_iff (a := [t]) (fun front back hsplit => ?_) (by simpa using hm)
  rcases List.singleton_eq_append_iff.1 hsplit with ⟨rfl, _⟩ | ⟨rfl, _⟩
  · simp
  · simp only [openings_cons, closings_cons, openings_nil, closings_nil]
    by_cases hclosing : t.token = .closing
    · have := hn hclosing
      simp only [if_pos hclosing]
      omega
    · simp [hclosing]

theorem closes_opening_iff {n : Nat} {span : Span} {tokens : List Lexeme} :
    Closes n (⟨.opening, span⟩ :: tokens) ↔ Closes (n + 1) tokens :=
  closes_cons_iff (by simp) (by simp; omega)

theorem closes_closing_iff {n : Nat} {span : Span} {tokens : List Lexeme} :
    Closes (n + 1) (⟨.closing, span⟩ :: tokens) ↔ Closes n tokens :=
  closes_cons_iff (by simp) (by simp; omega)

theorem not_balanced_closing {span : Span} {tokens : List Lexeme} :
    ¬Balanced (⟨.closing, span⟩ :: tokens) := by
  intro h
  have := h.never_more [⟨.closing, span⟩] tokens rfl
  simp at this

/-- A token that is no parenthesis counts for nothing. -/
theorem closes_other_iff {n : Nat} {t : Lexeme} {tokens : List Lexeme}
    (hopening : t.token ≠ .opening) (hclosing : t.token ≠ .closing) :
    Closes n (t :: tokens) ↔ Closes n tokens :=
  closes_cons_iff (fun h => absurd h hclosing) (by simp [hopening, hclosing])

theorem Balanced.closes_append_iff {n : Nat} {a b : List Lexeme} (ha : Balanced a) :
    Closes n (a ++ b) ↔ Closes n b :=
  Calculator.closes_append_iff
    (fun _ _ hsplit => Nat.le_trans (ha.never_more _ _ hsplit) (by omega))
    (by have := ha.in_all; omega)

theorem Balanced.append {a b : List Lexeme} (ha : Balanced a) (hb : Balanced b) :
    Balanced (a ++ b) := ha.closes_append_iff.2 hb

theorem Balanced.enclose {inside : List Lexeme} (h : Balanced inside) (opened closed : Span) :
    Balanced (⟨.opening, opened⟩ :: (inside ++ [⟨.closing, closed⟩])) := by
  rw [Balanced, closes_opening_iff, h.closes_append_iff, closes_closing_iff, closes_nil_iff]

/-- With some parentheses open, nothing is unmatched if the list closes just as many. -/
theorem unmatched?_eq_none_iff {opened : List Span} {tokens : List Lexeme} :
    unmatched? opened tokens = none ↔ Closes opened.length tokens := by
  fun_induction unmatched? opened tokens with
  | case1 opened => simp [closes_nil_iff]
  | case2 opened span tokens ih => rw [ih, closes_opening_iff, List.length_cons]
  | case3 span tokens => simpa using not_balanced_closing
  | case4 s opened span tokens ih => rw [ih, List.length_cons, closes_closing_iff]
  | case5 opened t tokens hopening hclosing₁ hclosing₂ ih =>
    rw [ih, closes_other_iff]
    · exact fun h => hopening t.span (by rw [← h])
    · intro h
      cases opened with
      | nil => exact hclosing₁ t.span rfl (by rw [← h])
      | cons s opened => exact hclosing₂ s opened t.span rfl (by rw [← h])

end Calculator
