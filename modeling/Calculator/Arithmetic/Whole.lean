import Calculator.Numeral.Binary

/-! Whole numbers among the doubles, told apart and read off exactly. -/

namespace Calculator

open Numeral

attribute [local instance] natPow

/-- Up to this size every whole number is a double, and no two of them read as one. -/
def maxExactWhole : Nat := 2 ^ (53 : Nat) - 1

/-- Finite and without a fraction. -/
def isWhole (x : Float) : Bool :=
  magnitude x < infinity && units (magnitude x) % 2 ^ fineness == 0

/-- The integer that a double of exact range equals. -/
def whole? (x : Float) : Option Int :=
  let size := units (magnitude x) / 2 ^ fineness
  if isWhole x && size ≤ maxExactWhole then
    some (if isNegative x then -(size : Int) else size)
  else none

theorem natAbs_le_of_whole? {x : Float} {n : Int} (h : whole? x = some n) :
    n.natAbs ≤ maxExactWhole := by
  simp only [whole?, Bool.and_eq_true, decide_eq_true_eq, Option.ite_none_right_eq_some] at h
  obtain ⟨⟨_, hle⟩, hn⟩ := h
  rw [← Option.some.inj hn]
  split
  · rwa [Int.natAbs_neg]
  · exact hle

end Calculator
