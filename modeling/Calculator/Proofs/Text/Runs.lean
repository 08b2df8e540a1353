import Mathlib.Data.List.SplitBy
import Calculator.Text.Basic

/-! Texts cut into runs of characters of one kind. Main statement: a run that nothing continues is
the first one of the text that begins with it. -/

namespace Calculator.Text

variable {p : Char → Bool}

/-- The text cut between any two neighbours that are not both of the kind: every run of such
characters, as long as it can be, and every other character on its own. -/
def runs (p : Char → Bool) (text : Text) : List Text := text.splitBy fun a b => p a && p b

@[simp] theorem flatten_runs (text : Text) : (runs p text).flatten = text :=
  List.flatten_splitBy _ text

theorem runs_run {run rest : Text} (hne : run ≠ []) (hrun : ∀ c ∈ run, p c)
    (hrest : ∀ c ∈ rest.head?, p c = false) : runs p (run ++ rest) = run :: runs p rest := by
  have hchain : run.IsChain fun a b => p a && p b := by
    apply List.Pairwise.isChain
    apply List.pairwise_of_forall_mem_list
    intro a ha b hb
    simp [hrun a ha, hrun b hb]
  rw [runs, List.splitBy_append, List.splitBy_of_isChain hne hchain]
  · rfl
  · intro a _ b hb
    simp [hrest b hb]

/-- The first run of a text goes as far as its characters are of the kind. -/
theorem runs_first {c : Char} (hc : p c) (text : Text) :
    runs p (c :: text) = (c :: text.takeWhile p) :: runs p (text.dropWhile p) := by
  have hrun := runs_run (List.cons_ne_nil _ _) (forall_mem_takeWhile hc text)
    (head?_dropWhile p text)
  rwa [List.cons_append, List.takeWhile_append_dropWhile] at hrun

theorem runs_cons {c : Char} (hc : p c = false) (rest : Text) :
    runs p (c :: rest) = [c] :: runs p rest := by
  rw [← List.singleton_append, runs, List.splitBy_append]
  · rfl
  · rintro a ha b _
    cases ha
    simp [hc]

end Calculator.Text
