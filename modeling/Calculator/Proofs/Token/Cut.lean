import Calculator.Proofs.Token.Matching

/-! Token lists cut at one of their tokens. An operator of the list is told to be between operands,
and outside all parentheses, by what stands before it. Main statements: where the first and the
last cut of some kind are. -/

namespace Calculator

/-- A token with what stands before and after it in a list. -/
structure Cut where
  before : List Lexeme
  lexeme : Lexeme
  after : List Lexeme

/-- The cuts of a list at each of its tokens, from left to right. -/
def cuts : List Lexeme → List Cut
  | [] => []
  | t :: tokens => ⟨[], t, tokens⟩ :: (cuts tokens).map fun c => { c with before := t :: c.before }

theorem mem_cuts {c : Cut} {tokens : List Lexeme} :
    c ∈ cuts tokens ↔ tokens = c.before ++ c.lexeme :: c.after := by
  induction tokens generalizing c with
  | nil => simp [cuts]
  | cons t tokens ih =>
    simp only [cuts, List.mem_cons, List.mem_map, ih]
    constructor
    · rintro (rfl | ⟨d, rfl, rfl⟩) <;> rfl
    · intro h
      obtain ⟨before, u, after⟩ := c
      cases before with
      | nil =>
        rw [List.nil_append, List.cons.injEq] at h
        exact .inl (by rw [h.1, h.2])
      | cons v before =>
        rw [List.cons_append, List.cons.injEq] at h
        exact .inr ⟨⟨before, u, after⟩, h.2, by rw [h.1]⟩

theorem cuts_append (a b : List Lexeme) :
    cuts (a ++ b) = (cuts a).map (fun c => { c with after := c.after ++ b }) ++
      (cuts b).map fun c => { c with before := a ++ c.before } := by
  induction a with
  | nil => simp [cuts]
  | cons t a ih => simp [cuts, ih, Function.comp_def]

/-- The first cut of a kind. -/
def firstCut? (p : Cut → Bool) (tokens : List Lexeme) : Option Cut := (cuts tokens).find? p

/-- The last cut of a kind. -/
def lastCut? (p : Cut → Bool) (tokens : List Lexeme) : Option Cut := (cuts tokens).reverse.find? p

section

variable {p : Cut → Bool}

theorem eq_of_firstCut? {tokens : List Lexeme} {c : Cut} (h : firstCut? p tokens = some c) :
    tokens = c.before ++ c.lexeme :: c.after := mem_cuts.1 (List.mem_of_find?_eq_some h)

theorem eq_of_lastCut? {tokens : List Lexeme} {c : Cut} (h : lastCut? p tokens = some c) :
    tokens = c.before ++ c.lexeme :: c.after :=
  mem_cuts.1 (List.mem_reverse.1 (List.mem_of_find?_eq_some h))

theorem firstCut?_eq_none_iff {tokens : List Lexeme} :
    firstCut? p tokens = none ↔
      ∀ before t after, tokens = before ++ t :: after → p ⟨before, t, after⟩ = false := by
  rw [firstCut?, List.find?_eq_none]
  constructor
  · intro h before t after hsplit
    simpa using h ⟨before, t, after⟩ (mem_cuts.2 hsplit)
  · intro h c hc
    simp [h _ _ _ (mem_cuts.1 hc)]

theorem lastCut?_eq_none_iff {tokens : List Lexeme} :
    lastCut? p tokens = none ↔
      ∀ before t after, tokens = before ++ t :: after → p ⟨before, t, after⟩ = false := by
  rw [← firstCut?_eq_none_iff, lastCut?, firstCut?, List.find?_eq_none, List.find?_eq_none]
  simp only [List.mem_reverse]

theorem firstCut?_append {a b : List Lexeme} {t : Lexeme} (ht : p ⟨a, t, b⟩)
    (ha : ∀ before u after, a = before ++ u :: after → p ⟨before, u, after ++ t :: b⟩ = false) :
    firstCut? p (a ++ t :: b) = some ⟨a, t, b⟩ := by
  have hfront : ((cuts a).map fun c => { c with after := c.after ++ t :: b }).find? p = none := by
    rw [List.find?_eq_none]
    intro c hc
    obtain ⟨d, hd, rfl⟩ := List.mem_map.1 hc
    simp [ha _ _ _ (mem_cuts.1 hd)]
  rw [firstCut?, cuts_append, List.find?_append, hfront, cuts]
  simp [ht]

theorem lastCut?_append {a b : List Lexeme} {t : Lexeme} (ht : p ⟨a, t, b⟩)
    (hb : ∀ before u after, b = before ++ u :: after → p ⟨a ++ t :: before, u, after⟩ = false) :
    lastCut? p (a ++ t :: b) = some ⟨a, t, b⟩ := by
  have hback : ((cuts b).map fun c => { c with before := a ++ t :: c.before }).reverse.find? p =
      none := by
    rw [List.find?_eq_none]
    intro c hc
    obtain ⟨d, hd, rfl⟩ := List.mem_map.1 (List.mem_reverse.1 hc)
    simp [hb _ _ _ (mem_cuts.1 hd)]
  rw [lastCut?, cuts_append, List.reverse_append, List.find?_append, cuts]
  simp only [List.map_cons, List.map_map, Function.comp_def, List.append_nil, List.reverse_cons,
    List.find?_append, hback, Option.none_or]
  simp [ht]

end

end Calculator
