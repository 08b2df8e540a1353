import Calculator.Proofs.Expr.Rereading
import Calculator.Proofs.Grammar.Limits

/-! Evaluation under two limits. Main statement: raising the limits changes no result but an error
that tells of a limit. -/

namespace Calculator

def Error.IsLimit : Error → Prop
  | parse error => error.IsLimit
  | exponent _ => False

/-- The same settings but for the limits, which are no narrower. -/
structure Settings.Within (few many : Settings) : Prop
    extends few.toLimits.Within many.toLimits where
  rootTolerance : few.rootTolerance = many.rootTolerance
  rootSteps : few.rootSteps = many.rootSteps
  places : few.places = many.places

theorem Settings.Within.rationalPower_eq {few many : Settings} (h : few.Within many) :
    few.rationalPower = many.rationalPower := by
  funext base exponent
  rw [rationalPower, rationalPower, h.places]
  unfold root
  rw [h.rootTolerance, h.rootSteps]

/-- The settings are there for powers with a fractional exponent. -/
theorem Expr.eval_eq_of_rationalPower {settings settings' : Settings}
    (h : settings.rationalPower = settings'.rationalPower) (read : Reader) (source : Text)
    (e : Expr) : e.eval settings read source = e.eval settings' read source := by
  induction e with
  | literal => rfl
  | group inner span ih => exact ih
  | negate operand span ih => rw [eval, eval, ih]
  | binary op left right span ihl ihr => rw [eval, eval, ihl, ihr, h]
  | adjacent left right span ihl ihr => rw [eval, eval, ihl, ihr]

/-- Answers that differ only where one is an error of some kind lead to results that do. -/
theorem Asks.sameUnless {α : Type} {run : Reader → Except Error α} {reads : Reader → List Text}
    (h : Asks run reads) {kind : Error → Prop} {read read' : Reader}
    (hread : ∀ inner ∈ reads read, SameUnless kind (read inner) (read' inner)) :
    SameUnless kind (run read) (run read') := by
  by_cases hsame : ∀ inner ∈ reads read, read inner = read' inner
  · rw [h.congr hsame]
    exact .refl _
  · simp only [not_forall] at hsame
    obtain ⟨inner, hmem, hne⟩ := hsame
    rcases hread inner hmem with heq | ⟨error, herror, hkind⟩
    · exact absurd heq hne
    · rw [h.fails hmem herror]
      exact .of_kind hkind _

section

variable {few many : Settings}

theorem evalText_within (h : few.Within many) (text : Text) :
    SameUnless Error.IsLimit (evalText few text) (evalText many text) := by
  induction text using reads_induction few (evalText few) with
  | ind text ih =>
    rw [evalText_eq, evalText_eq, evalTextWith, evalTextWith]
    rcases parseText_within h.toWithin text with hparse | ⟨error, hparse, hlimit⟩
    · rw [← hparse]
      cases he : parseText few.toLimits text with
      | error error => exact .refl _
      | ok e =>
        dsimp only
        rw [← Expr.eval_eq_of_rationalPower h.rationalPower_eq]
        exact e.eval_asks.sameUnless (ih e he e e.self_mem_nodes)
    · rw [hparse]
      exact .of_kind (show Error.IsLimit (.parse error) from hlimit) _

/-- Under wider limits a text has the same value or the same error, unless the narrower ones were
exceeded. -/
theorem evaluate_eq_of_within (h : few.Within many) (text : Text) :
    ((∀ error, evaluate few text = .error error → ¬error.IsLimit) →
      evaluate many text = evaluate few text) ∧
    ((∀ error, evalText few text = .error error → ¬error.IsLimit) →
      evalText many text = evalText few text) := by
  constructor
  · intro hlimit
    exact ((evalText_within h _).eq hlimit).symm
  · intro hlimit
    exact ((evalText_within h text).eq hlimit).symm

/-- Joined operands and a fraction, in limits that are just wide enough. -/
theorem evaluate_eq_of_within_joined :
    evaluate { nesting := 3, operators := 2 } "(1) 2 ^ (4/(2))".toList = .ok 144 ∧
      evaluate {} "(1) 2 ^ (4/(2))".toList =
        evaluate { nesting := 3, operators := 2 } "(1) 2 ^ (4/(2))".toList := by
  have hvalue : evaluate { nesting := 3, operators := 2 } "(1) 2 ^ (4/(2))".toList = .ok 144 := by
    decide +kernel
  have hwithin : Settings.Within { nesting := 3, operators := 2 } {} :=
    ⟨⟨by decide, by decide⟩, rfl, rfl, rfl⟩
  refine ⟨hvalue, (evaluate_eq_of_within hwithin _).1 fun error herror => ?_⟩
  rw [hvalue] at herror
  cases herror

end

end Calculator
