import Calculator.Numeral.Decimal

/-! The written form of a double: the fewest digits that read back, in positional notation. Main
statement: a decimal so written reads as the double nearest to it. -/

namespace Calculator.Numeral

attribute [local instance] natPow

/-- The written form, with a sign exactly when the sign bit is set, also for zero. -/
def write (x : Float) : Text :=
  if infinity < magnitude x then ['N', 'a', 'N']
  else
    let size := if magnitude x = infinity then ['i', 'n', 'f'] else
      (Decimal.shortest (magnitude x)).text
    if isNegative x then '-' :: size else size

/-- The number with the given digits before and after the point; it has at least one. -/
def ofDigits? (whole fraction : Text) : Option Float :=
  if whole.isEmpty && fraction.isEmpty then none
  else
    let digits := Nat.ofDigitChars 10 (whole ++ fraction) 0
    some (ofMagnitude false (nearest digits (10 ^ fraction.length)))

/-- The number that a text of digits and at most one point writes. -/
def read? (text : Text) : Option Float :=
  match text.dropWhile Char.isDigit with
  | [] => ofDigits? text []
  | '.' :: fraction =>
    if fraction.all Char.isDigit then ofDigits? (text.takeWhile Char.isDigit) fraction else none
  | _ => none

/-! ### Reading what is written -/

theorem dropWhile_digits {digits rest : Text} (h : ∀ c ∈ digits, c.isDigit)
    (hr : ∀ c ∈ rest.head?, c.isDigit = false) :
    (digits ++ rest).dropWhile Char.isDigit = rest := by
  induction digits with
  | nil =>
    cases rest with
    | nil => rfl
    | cons c rest => simp [hr c (by simp)]
  | cons c digits ih =>
    simp only [List.mem_cons, forall_eq_or_imp] at h
    simp [h.1, ih h.2]

theorem takeWhile_digits {digits rest : Text} (h : ∀ c ∈ digits, c.isDigit)
    (hr : ∀ c ∈ rest.head?, c.isDigit = false) :
    (digits ++ rest).takeWhile Char.isDigit = digits := by
  have := List.takeWhile_append_dropWhile (p := Char.isDigit) (l := digits ++ rest)
  rw [dropWhile_digits h hr] at this
  exact List.append_cancel_right this

/-- What whole part and fraction write reads as the number they make up. -/
theorem read?_digits {whole fraction : Text} (hw : ∀ c ∈ whole, c.isDigit)
    (hf : ∀ c ∈ fraction, c.isDigit) (hne : whole ≠ []) :
    read? (if fraction.isEmpty then whole else whole ++ '.' :: fraction) =
      some (ofMagnitude false
        (nearest (Nat.ofDigitChars 10 (whole ++ fraction) 0) (10 ^ fraction.length))) := by
  cases fraction with
  | nil =>
    have hd : (whole ++ []).dropWhile Char.isDigit = [] := dropWhile_digits hw (by simp)
    rw [List.append_nil] at hd
    simp [read?, hd, ofDigits?, hne]
  | cons c fraction =>
    have hr : ∀ x ∈ ('.' :: c :: fraction).head?, x.isDigit = false := by simp
    simp only [read?, List.isEmpty_cons, Bool.false_eq_true, if_false, dropWhile_digits hw hr,
      takeWhile_digits hw hr, List.all_eq_true.2 hf, if_true, ofDigits?, Bool.and_false]

/-- Zeros at the end of a text, put back. -/
theorem dropTrailingZeros_append (digits : Text) :
    ∃ zeros,
      (digits.reverse.dropWhile (· == '0')).reverse ++ List.replicate zeros '0' = digits := by
  have hall : ∀ c ∈ digits.reverse.takeWhile (· == '0'), c = '0' := fun c hc => by
    simpa using List.all_eq_true.1 List.all_takeWhile c hc
  refine ⟨(digits.reverse.takeWhile (· == '0')).length, ?_⟩
  rw [← List.reverse_replicate, ← List.eq_replicate_of_mem hall, ← List.reverse_append,
    List.takeWhile_append_dropWhile, List.reverse_reverse]

/-- A decimal in positional notation reads as the decimal. -/
theorem read?_text (d : Decimal) : read? d.text = some (ofMagnitude false d.magnitude) := by
  unfold Decimal.text
  extract_lets places digits padded whole fraction
  have hdigits : ∀ c ∈ padded, c.isDigit := by
    simp only [padded, digits, List.mem_append, List.mem_replicate]
    rintro c (⟨_, rfl⟩ | hc | ⟨_, rfl⟩)
    · rfl
    · exact Nat.isDigit_of_mem_toDigits (by decide) (by decide) hc
    · rfl
  have hlength : places < padded.length := by
    simp only [padded, List.length_append, List.length_replicate]
    omega
  have hvalue : Nat.ofDigitChars 10 padded 0 = d.coefficient * 10 ^ (d.scale - fineness) := by
    simp [padded, digits, Nat.ofDigitChars_append, Nat.mul_comm]
  obtain ⟨zeros, hzeros⟩ := dropTrailingZeros_append (padded.drop (padded.length - places))
  have hplaces : fraction.length + zeros = places := by
    have := congrArg List.length hzeros
    simp only [List.length_append, List.length_replicate, List.length_drop] at this
    simp only [fraction]
    omega
  have hsplit : whole ++ fraction ++ List.replicate zeros '0' = padded := by
    rw [List.append_assoc, hzeros, List.take_append_drop]
  have hmem : ∀ c ∈ whole ++ fraction, c.isDigit := fun c hc =>
    hdigits c (hsplit ▸ List.mem_append_left _ hc)
  rw [read?_digits (fun c hc => hmem c (List.mem_append_left _ hc))
    (fun c hc => hmem c (List.mem_append_right _ hc))
    (by intro h; have := congrArg List.length h; simp [whole] at this; omega)]
  refine congrArg (fun n => some (ofMagnitude false n)) ?_
  rw [← nearest_mul_mul _ _ (Nat.pow_pos (n := zeros) (by decide : 0 < 10)), ← Nat.pow_add, hplaces,
    Decimal.magnitude]
  have hnumber : Nat.ofDigitChars 10 (whole ++ fraction) 0 * 10 ^ zeros =
      d.coefficient * 10 ^ (d.scale - fineness) := by
    rw [← hvalue, ← hsplit, Nat.ofDigitChars_append _ (l := whole ++ fraction),
      Nat.ofDigitChars_replicate_zero, Nat.mul_comm]
  rw [hnumber]
  rcases Nat.le_total d.scale fineness with hle | hle
  · rw [← nearest_mul_mul _ _ (Nat.pow_pos (n := d.scale) (by decide : 0 < 10)), ← Nat.pow_add,
      Nat.sub_add_cancel hle, Nat.sub_eq_zero_of_le hle, Nat.pow_zero, Nat.mul_one]
  · rw [← nearest_mul_mul _ _ (Nat.pow_pos (n := fineness) (by decide : 0 < 10)), Nat.mul_assoc,
      ← Nat.pow_add, ← Nat.pow_add, Nat.sub_add_cancel hle,
      show places = 0 from Nat.sub_eq_zero_of_le hle, Nat.zero_add]

end Calculator.Numeral
