/-! Texts as lists of characters, cut at byte offsets of their UTF-8 form. A cut inside a
character, or past the end, gives nothing. -/

namespace Calculator

/-- A piece of what the user wrote, or of what the calculator writes for itself to read. -/
abbrev Text := List Char

namespace Text

/-- The number of bytes of the UTF-8 form. -/
def byteLength : Text → Nat
  | [] => 0
  | c :: text => c.utf8Size + byteLength text

/-- What follows the first `n` bytes. -/
def dropBytes : Nat → Text → Option Text
  | 0, text => some text
  | _ + 1, [] => none
  | n + 1, c :: text => if c.utf8Size ≤ n + 1 then dropBytes (n + 1 - c.utf8Size) text else none

/-- The first `n` bytes. -/
def takeBytes : Nat → Text → Option Text
  | 0, _ => some []
  | _ + 1, [] => none
  | n + 1, c :: text =>
    if c.utf8Size ≤ n + 1 then (takeBytes (n + 1 - c.utf8Size) text).map (c :: ·) else none

/-- The bytes from `start` on and before `stop`. -/
def slice? (start stop : Nat) (text : Text) : Option Text :=
  if start ≤ stop then (text.dropBytes start).bind (takeBytes (stop - start)) else none

@[simp] theorem byteLength_nil : byteLength [] = 0 := rfl

@[simp] theorem byteLength_cons (c : Char) (text : Text) :
    byteLength (c :: text) = c.utf8Size + byteLength text := rfl

@[simp] theorem byteLength_append (a b : Text) :
    byteLength (a ++ b) = byteLength a + byteLength b := by
  induction a with
  | nil => simp
  | cons c a ih => simp [ih, Nat.add_assoc]

@[simp] theorem dropBytes_zero (text : Text) : text.dropBytes 0 = some text := by
  cases text <;> rfl

@[simp] theorem takeBytes_zero (text : Text) : text.takeBytes 0 = some [] := by
  cases text <;> rfl

theorem dropBytes_append (a b : Text) : (a ++ b).dropBytes (byteLength a) = some b := by
  induction a with
  | nil => simp
  | cons c a ih =>
    have hc := c.utf8Size_pos
    obtain ⟨n, hn⟩ : ∃ n, byteLength (c :: a) = n + 1 := ⟨byteLength (c :: a) - 1, by simp; omega⟩
    rw [List.cons_append, hn, dropBytes, if_pos (by simp at hn; omega),
      show n + 1 - c.utf8Size = byteLength a by simp at hn; omega, ih]

theorem takeBytes_append (a b : Text) : (a ++ b).takeBytes (byteLength a) = some a := by
  induction a with
  | nil => simp
  | cons c a ih =>
    have hc := c.utf8Size_pos
    obtain ⟨n, hn⟩ : ∃ n, byteLength (c :: a) = n + 1 := ⟨byteLength (c :: a) - 1, by simp; omega⟩
    rw [List.cons_append, hn, takeBytes, if_pos (by simp at hn; omega),
      show n + 1 - c.utf8Size = byteLength a by simp at hn; omega, ih]
    rfl

/-- A slice at the borders of a middle part is that part. -/
theorem slice?_append (a b c : Text) :
    (a ++ b ++ c).slice? (byteLength a) (byteLength a + byteLength b) = some b := by
  rw [slice?, if_pos (Nat.le_add_right ..), List.append_assoc, dropBytes_append,
    Option.bind_some, Nat.add_sub_cancel_left, takeBytes_append]

/-! ### Cuts behind the first characters of a kind -/

theorem forall_mem_takeWhile {p : Char → Bool} {c : Char} (hc : p c) (text : Text) :
    ∀ d ∈ c :: text.takeWhile p, p d :=
  List.forall_mem_cons.2 ⟨hc, fun _ hd => List.all_eq_true.1 List.all_takeWhile _ hd⟩

theorem head?_dropWhile (p : Char → Bool) (text : Text) :
    ∀ c ∈ (text.dropWhile p).head?, p c = false := by
  intro c hc
  have hhead := List.head?_dropWhile_not p text
  rwa [Option.mem_def.1 hc] at hhead

end Text

end Calculator
