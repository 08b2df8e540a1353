import Mathlib.Data.List.Forall2
import Mathlib.Logic.Function.Iterate
import Calculator.Evaluate
import Calculator.Proofs.Text.Runs

/-! Runs of signs. Passes over a text join signs two by two, wherever the pairs happen to begin.
What stays the same is what one reading from left to right makes of the text, which multiplies the
signs of a run as they come. Main statement: the passes end, and each run is then the one sign of
its product; so texts that differ only by blanks and by how their signs are written have the same
value. -/

namespace Calculator

namespace Sign

theorem mul_assoc (a b c : Sign) : (a.mul b).mul c = a.mul (b.mul c) := by
  cases a <;> cases b <;> cases c <;> rfl

/-- The product of signs that came before, if any did, and one more. -/
def after : Option Sign → Sign → Sign
  | none, s => s
  | some before, s => before.mul s

theorem after_mul (before : Option Sign) (s t : Sign) :
    after (some (after before s)) t = after before (s.mul t) := by
  cases before with
  | none => rfl
  | some before => exact mul_assoc before s t

/-- The product of a run of signs. -/
def ofRun (run : Text) : Sign := if run.count '-' % 2 = 1 then minus else plus

theorem ofRun_cons {c : Char} {s : Sign} (hc : ofChar? c = some s) (run : Text) :
    ofRun (c :: run) = s.mul (ofRun run) := by
  obtain rfl := ofChar?_eq_some_iff.1 hc
  rcases Nat.mod_two_eq_zero_or_one (run.count '-') with hrun | hrun <;> cases s <;>
    simp [ofRun, toChar, mul, hrun, Nat.add_mod]

end Sign

namespace Text

def isSign (c : Char) : Bool := (Sign.ofChar? c).isSome

theorem isSign_eq_false_iff {c : Char} : isSign c = false ↔ Sign.ofChar? c = none := by
  rw [isSign, Option.isSome_eq_false_iff, Option.isNone_iff_eq_none]

/-- No sign stands right after a sign. -/
def SignsApart (text : Text) : Prop := text.IsChain fun a b => isSign a → isSign b = false

/-- A run of signs as one sign, and any other piece as it is. -/
def joinRun (piece : Text) : Text :=
  if piece.all isSign then [(Sign.ofRun piece).toChar] else piece

/-! ### One reading from left to right -/

/-- The text with its signs joined, when signs of the product `before` come in front of it. -/
def joinAfter : Option Sign → Text → Text
  | before, [] => (before.map Sign.toChar).toList
  | before, c :: text =>
    match Sign.ofChar? c with
    | some s => joinAfter (some (Sign.after before s)) text
    | none => (before.map Sign.toChar).toList ++ c :: joinAfter none text

section

variable {before : Option Sign} {c : Char} {text : Text}

theorem joinAfter_sign {s : Sign} (hc : Sign.ofChar? c = some s) :
    joinAfter before (c :: text) = joinAfter (some (Sign.after before s)) text := by
  rw [joinAfter, hc]

theorem joinAfter_other (hc : Sign.ofChar? c = none) :
    joinAfter before (c :: text) =
      (before.map Sign.toChar).toList ++ c :: joinAfter none text := by
  rw [joinAfter, hc]

/-- Signs that no other sign follows are done with. -/
theorem joinAfter_of_head {s : Sign} (hhead : ∀ c ∈ text.head?, isSign c = false) :
    joinAfter (some s) text = s.toChar :: joinAfter none text := by
  cases text with
  | nil => rfl
  | cons c text =>
    have hc := isSign_eq_false_iff.1 (hhead c rfl)
    rw [joinAfter_other hc, joinAfter_other hc]
    rfl

end

/-- A pass changes nothing about what the reading makes of a text. -/
theorem joinAfter_joinSigns (before : Option Sign) (text : Text) :
    joinAfter before (joinSigns text) = joinAfter before text := by
  fun_induction joinSigns text generalizing before with
  | case1 a b text s t hb ha ih =>
    rw [joinAfter_sign (Sign.ofChar?_toChar _), joinAfter_sign ha, joinAfter_sign hb, ih,
      Sign.after_mul]
  | case2 a b text _ ih =>
    cases ha : Sign.ofChar? a with
    | some s => rw [joinAfter_sign ha, joinAfter_sign ha, ih]
    | none => rw [joinAfter_other ha, joinAfter_other ha, ih]
  | case3 => rfl

/-- A text that no pass makes shorter has no signs side by side. -/
theorem signsApart_of_joinSigns {text : Text} (h : text.length ≤ (joinSigns text).length) :
    SignsApart text := by
  fun_induction joinSigns text with
  | case1 a b text s t _ _ ih =>
    have := length_joinSigns_le text
    simp only [List.length_cons] at h
    omega
  | case2 a b text hnone ih =>
    refine List.isChain_cons_cons.2 ⟨fun ha => ?_, ih (by simpa using h)⟩
    obtain ⟨s, hs⟩ := Option.isSome_iff_exists.1 ha
    rw [isSign_eq_false_iff]
    exact Option.eq_none_iff_forall_not_mem.2 fun t ht => hnone s t hs ht
  | case3 text hshort =>
    cases text with
    | nil => exact .nil
    | cons a text =>
      cases text with
      | nil => exact .singleton a
      | cons b text => exact absurd rfl (hshort a b text)

/-- Signs that stand alone are read as they are. -/
theorem joinAfter_eq_self {text : Text} (h : SignsApart text) : joinAfter none text = text := by
  induction text with
  | nil => rfl
  | cons c text ih =>
    obtain ⟨hnext, htail⟩ := List.isChain_cons.1 h
    cases hc : Sign.ofChar? c with
    | none => rw [joinAfter_other hc, ih htail]; rfl
    | some s =>
      have hhead : ∀ d ∈ text.head?, isSign d = false := fun d hd =>
        hnext d hd (by rw [isSign, hc]; rfl)
      rw [joinAfter_sign hc, joinAfter_of_head hhead, ih htail, Sign.ofChar?_eq_some_iff.1 hc]
      rfl

theorem signsApart_normalizeSigns (text : Text) : SignsApart (normalizeSigns text) := by
  fun_induction normalizeSigns text with
  | case1 text _ ih => exact ih
  | case2 text h =>
    rw [joinSigns_eq_self (Nat.le_of_not_lt h)]
    exact signsApart_of_joinSigns (Nat.le_of_not_lt h)

/-- All passes together make of a text what the one reading makes of it. -/
theorem normalizeSigns_eq_joinAfter (text : Text) : normalizeSigns text = joinAfter none text := by
  fun_induction normalizeSigns text with
  | case1 text _ ih => rw [ih, joinAfter_joinSigns]
  | case2 text h =>
    have hlength := Nat.le_of_not_lt h
    rw [joinSigns_eq_self hlength, joinAfter_eq_self (signsApart_of_joinSigns hlength)]

/-! ### Runs of signs -/

section

variable {before : Option Sign} {run run' text text' : Text}

/-- A run is read as its product. -/
theorem joinAfter_run (hne : run ≠ []) (hrun : ∀ c ∈ run, isSign c) :
    joinAfter before (run ++ text) =
      joinAfter (some (Sign.after before (Sign.ofRun run))) text := by
  induction run generalizing before with
  | nil => exact absurd rfl hne
  | cons c run ih =>
    obtain ⟨hc, hrun⟩ := List.forall_mem_cons.1 hrun
    obtain ⟨s, hs⟩ := Option.isSome_iff_exists.1 hc
    rw [List.cons_append, joinAfter_sign hs]
    cases run with
    | nil =>
      obtain rfl := Sign.ofChar?_eq_some_iff.1 hs
      cases s <;> rfl
    | cons d run => rw [ih (by simp) hrun, Sign.ofRun_cons hs, Sign.after_mul]

theorem joinAfter_append_congr (h : ∀ before, joinAfter before text = joinAfter before text')
    (before : Option Sign) (run : Text) :
    joinAfter before (run ++ text) = joinAfter before (run ++ text') := by
  induction run generalizing before with
  | nil => exact h before
  | cons c run ih =>
    rw [List.cons_append, List.cons_append]
    cases hc : Sign.ofChar? c with
    | some s => rw [joinAfter_sign hc, joinAfter_sign hc, ih]
    | none => rw [joinAfter_other hc, joinAfter_other hc, ih]

end

/-- The reading joins each run of a text and keeps all else. -/
theorem joinAfter_eq_flatMap (text : Text) :
    joinAfter none text = (text.runs isSign).flatMap joinRun := by
  induction hlength : text.length using Nat.strongRecOn generalizing text with
  | ind n ih =>
    cases text with
    | nil => rfl
    | cons c text =>
      cases hc : isSign c with
      | false =>
        have hjoin : joinRun [c] = [c] := by simp [joinRun, hc]
        rw [joinAfter_other (isSign_eq_false_iff.1 hc), runs_cons hc, List.flatMap_cons, hjoin,
          ih text.length (by simp at hlength; omega) text rfl]
        rfl
      | true =>
        have hrun := forall_mem_takeWhile hc text
        have hhead := head?_dropWhile isSign text
        have hrest : (text.dropWhile isSign).length ≤ text.length :=
          (List.dropWhile_sublist isSign).length_le
        have hjoin : joinRun (c :: text.takeWhile isSign) =
            [(Sign.ofRun (c :: text.takeWhile isSign)).toChar] := by
          rw [joinRun, if_pos (List.all_eq_true.2 hrun)]
        rw [← List.takeWhile_append_dropWhile (p := isSign) (l := text), ← List.cons_append,
          joinAfter_run (by simp) hrun, joinAfter_of_head hhead, runs_run (by simp) hrun hhead,
          List.flatMap_cons, hjoin, ih _ (by simp at hlength; omega) _ rfl]
        rfl

theorem normalizeSigns_eq_flatMap (text : Text) :
    normalizeSigns text = (text.runs isSign).flatMap joinRun := by
  rw [normalizeSigns_eq_joinAfter, joinAfter_eq_flatMap]

/-! ### Passes -/

/-- Every pass but the last one makes the text shorter, and the last one finds nothing to join. -/
theorem exists_passes (text : Text) : ∃ passes,
    (∀ n < passes, (joinSigns^[n + 1] text).length < (joinSigns^[n] text).length) ∧
      joinSigns^[passes + 1] text = joinSigns^[passes] text ∧
      normalizeSigns text = joinSigns^[passes] text := by
  fun_induction normalizeSigns text with
  | case1 text hlt ih =>
    obtain ⟨passes, hshorter, hfixed, heq⟩ := ih
    refine ⟨passes + 1, fun n hn => ?_, hfixed, heq⟩
    cases n with
    | zero => exact hlt
    | succ n => exact hshorter n (by omega)
  | case2 text h =>
    have hfixed := joinSigns_eq_self (Nat.le_of_not_lt h)
    exact ⟨0, fun n hn => absurd hn (Nat.not_lt_zero n), hfixed, hfixed⟩

/-! ### Signs written otherwise -/

/-- The second piece stands for the first one: for a run of signs another one with as many minuses,
or an even number more or less, and for anything else itself. -/
def SameSign (piece piece' : Text) : Prop :=
  if piece.all isSign then
    piece' ≠ [] ∧ piece'.all isSign ∧ piece'.count '-' % 2 = piece.count '-' % 2
  else piece' = piece

instance (piece piece' : Text) : Decidable (piece.SameSign piece') :=
  inferInstanceAs (Decidable (ite (piece.all isSign = true) (_ ∧ _ ∧ _) (_ = _)))

/-- The second text is the first one with each run of signs written in some other way. -/
def Resigned (text text' : Text) : Prop :=
  ∃ pieces, List.Forall₂ SameSign (text.runs isSign) pieces ∧ pieces.flatten = text'

theorem SameSign.joinAfter_eq {piece piece' : Text} (h : piece.SameSign piece') (hne : piece ≠ [])
    (before : Option Sign) (text : Text) :
    joinAfter before (piece' ++ text) = joinAfter before (piece ++ text) := by
  unfold SameSign at h
  split at h
  · next hall =>
    obtain ⟨hne', hall', hcount⟩ := h
    rw [joinAfter_run hne (List.all_eq_true.1 hall), joinAfter_run hne' (List.all_eq_true.1 hall'),
      Sign.ofRun, Sign.ofRun, hcount]
  · rw [h]

theorem Resigned.normalizeSigns_eq {text text' : Text} (h : text.Resigned text') :
    normalizeSigns text' = normalizeSigns text := by
  obtain ⟨pieces, hsame, rfl⟩ := h
  have hne : [] ∉ text.runs isSign := List.nil_notMem_splitBy _ text
  have hread (before : Option Sign) :
      joinAfter before pieces.flatten = joinAfter before (text.runs isSign).flatten := by
    generalize text.runs isSign = runs at hsame hne
    induction hsame generalizing before with
    | nil => rfl
    | @cons piece piece' runs pieces hpiece _ ih =>
      rw [List.mem_cons, not_or] at hne
      rw [List.flatten_cons, List.flatten_cons, hpiece.joinAfter_eq (Ne.symm hne.1),
        joinAfter_append_congr fun before => ih before hne.2]
  rw [normalizeSigns_eq_joinAfter, normalizeSigns_eq_joinAfter, hread, flatten_runs]

/-- The passes over a text end, and leave each run of signs as one sign and all else as it was. So
two texts that are the same, once blanks are taken out and each run of signs is written as some
other run with the same product, have the same value or the same error. -/
theorem normalizeSigns_runs (text : Text) :
    (∃ passes, (∀ n < passes, (joinSigns^[n + 1] text).length < (joinSigns^[n] text).length) ∧
      joinSigns^[passes + 1] text = joinSigns^[passes] text ∧
      normalizeSigns text = joinSigns^[passes] text) ∧
    normalizeSigns text = (text.runs isSign).flatMap joinRun ∧
    ∀ (settings : Settings) (text' common : Text), text.stripBlanks.Resigned common →
      text'.stripBlanks.Resigned common → evaluate settings text = evaluate settings text' := by
  refine ⟨exists_passes text, normalizeSigns_eq_flatMap text, ?_⟩
  intro settings text' common h h'
  rw [evaluate, evaluate, ← h.normalizeSigns_eq, ← h'.normalizeSigns_eq]

/-- Blanks between signs, and runs of several lengths. -/
theorem normalizeSigns_runs_blanks :
    Resigned (stripBlanks "3 - -+2*- --1".toList) "3+2*-1".toList ∧
      Resigned (stripBlanks "3++ 2 * -1".toList) "3+2*-1".toList ∧
      evaluate {} "3 - -+2*- --1".toList = evaluate {} "3++ 2 * -1".toList := by
  have h : Resigned (stripBlanks "3 - -+2*- --1".toList) "3+2*-1".toList :=
    ⟨[['3'], ['+'], ['2'], ['*'], ['-'], ['1']], by decide, by decide⟩
  have h' : Resigned (stripBlanks "3++ 2 * -1".toList) "3+2*-1".toList :=
    ⟨[['3'], ['+'], ['2'], ['*'], ['-'], ['1']], by decide, by decide⟩
  exact ⟨h, h', (normalizeSigns_runs _).2.2 {} _ _ h h'⟩

end Text

end Calculator
