import Calculator.Text.Basic

/-! Blank characters, and texts without them. -/

namespace Calculator.Text

/-- The characters with the Unicode property `White_Space`. -/
def isBlank (c : Char) : Bool :=
  let n := c.toNat
  (0x09 ≤ n && n ≤ 0x0d) || n == 0x20 || n == 0x85 || n == 0xa0 || n == 0x1680 ||
    (0x2000 ≤ n && n ≤ 0x200a) || n == 0x2028 || n == 0x2029 || n == 0x202f || n == 0x205f ||
    n == 0x3000

/-- The text without its blanks, wherever they stand. -/
def stripBlanks (text : Text) : Text := text.filter fun c => !isBlank c

/-- The text without the blanks at its two ends. -/
def trimBlanks (text : Text) : Text :=
  ((text.dropWhile isBlank).reverse.dropWhile isBlank).reverse

theorem mem_stripBlanks {c : Char} {text : Text} :
    c ∈ stripBlanks text ↔ c ∈ text ∧ isBlank c = false := by
  simp [stripBlanks]

theorem stripBlanks_dropWhile (text : Text) :
    stripBlanks (text.dropWhile isBlank) = stripBlanks text := by
  induction text with
  | nil => rfl
  | cons c text ih =>
    cases hc : isBlank c with
    | false => rw [List.dropWhile_cons_of_neg (by simp [hc])]
    | true =>
      rw [List.dropWhile_cons_of_pos hc, ih, stripBlanks, stripBlanks,
        List.filter_cons_of_neg (by simp [hc])]

/-- Trimming takes nothing but blanks. -/
theorem stripBlanks_trimBlanks (text : Text) : stripBlanks text.trimBlanks = stripBlanks text := by
  have hreverse (text : Text) : stripBlanks text.reverse = (stripBlanks text).reverse :=
    List.filter_reverse
  rw [trimBlanks, hreverse, stripBlanks_dropWhile, hreverse, List.reverse_reverse,
    stripBlanks_dropWhile]

/-- A text that is trimmed does not begin with a blank. -/
theorem isBlank_of_mem_head?_trimBlanks (text : Text) {c : Char} (h : c ∈ text.trimBlanks.head?) :
    isBlank c = false := by
  have hprefix : text.trimBlanks <+: text.dropWhile isBlank := by
    rw [trimBlanks, ← List.reverse_suffix, List.reverse_reverse]
    exact List.dropWhile_suffix isBlank
  obtain ⟨rest, hrest⟩ := hprefix
  apply head?_dropWhile isBlank text c
  rw [← hrest, List.head?_append, Option.mem_def.1 h]
  rfl

/-- A text that is trimmed begins with the first character that is no blank. -/
theorem head?_trimBlanks (text : Text) :
    text.trimBlanks.head? = text.find? fun c => !isBlank c := by
  rw [← List.head?_filter]
  change _ = text.stripBlanks.head?
  rw [← stripBlanks_trimBlanks]
  cases htrim : text.trimBlanks with
  | nil => rfl
  | cons c rest =>
    have hc : isBlank c = false := isBlank_of_mem_head?_trimBlanks text (by rw [htrim]; rfl)
    rw [stripBlanks, List.filter_cons_of_pos (by simp [hc])]
    rfl

end Calculator.Text
