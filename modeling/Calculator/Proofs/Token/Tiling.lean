import Mathlib.Data.List.Chain
import Calculator.Grammar.Parser
import Calculator.Token.Scan

/-! Tokens as tiles: a text cut into the pieces that its tokens are written as, one after the
other, each at its place. Main statement: `scan` gives the one tiling of a text in which numbers
are as long as they can be. -/

namespace Calculator

open Grammar (bind_eq_ok)

/-- How a token is written. -/
def Token.Writes : Token → Text → Prop
  | .number value, piece => (∀ c ∈ piece, isNumeric c) ∧ Numeral.read? piece = some value
  | .operator op, piece => piece = [op.toChar]
  | .opening, piece => piece = ['(']
  | .closing, piece => piece = [')']

def Token.isNumber : Token → Bool
  | .number _ => true
  | _ => false

/-- The tokens stand one after the other in a text that begins at the offset `start`. -/
inductive Tiles : (start : Nat) → Text → List Lexeme → Prop
  | nil {start} : Tiles start [] []
  | cons {start token piece text tokens} : token.Writes piece →
    Tiles (start + piece.byteLength) text tokens →
    Tiles start (piece ++ text) (⟨token, ⟨start, start + piece.byteLength⟩⟩ :: tokens)

/-- No number stands right after a number. -/
def Apart (tokens : List Lexeme) : Prop :=
  tokens.IsChain fun a b => a.token.isNumber → b.token.isNumber = false

namespace Tiles

variable {start : Nat} {text : Text}

/-- Where the tokens are split, so is the text. -/
theorem split {before after : List Lexeme} (h : Tiles start text (before ++ after)) :
    ∃ a b, text = a ++ b ∧ Tiles start a before ∧
      Tiles (start + a.byteLength) b after := by
  induction before generalizing start text with
  | nil => exact ⟨[], text, rfl, .nil, by simpa using h⟩
  | cons t before ih =>
    rw [List.cons_append] at h
    cases h with
    | cons hpiece hrest =>
      obtain ⟨a, b, rfl, ha, hb⟩ := ih hrest
      exact ⟨_ ++ a, b, by rw [List.append_assoc], .cons hpiece ha,
        by simpa [Nat.add_assoc] using hb⟩

theorem append {a b : Text} {before after : List Lexeme} (ha : Tiles start a before)
    (hb : Tiles (start + a.byteLength) b after) : Tiles start (a ++ b) (before ++ after) := by
  induction ha with
  | nil => exact hb
  | cons hpiece _ ih =>
    rw [List.append_assoc]
    refine .cons hpiece (ih ?_)
    rwa [Text.byteLength_append, ← Nat.add_assoc] at hb

theorem start_eq {t : Lexeme} {tokens : List Lexeme} (h : Tiles start text (t :: tokens)) :
    t.span.start = start := by
  cases h
  rfl

end Tiles

/-! ### Scanning -/

theorem utf8Size_of_isNumeric {c : Char} (h : isNumeric c) : c.utf8Size = 1 := by
  rw [Char.utf8Size_eq_one_iff, UInt32.le_iff_toNat_le]
  simp only [isNumeric, Bool.or_eq_true, beq_iff_eq] at h
  rcases h with h | rfl
  · exact Nat.le_trans (Char.isDigit_iff_toNat.1 h).2 (by decide)
  · decide

theorem byteLength_of_isNumeric {piece : Text} (h : ∀ c ∈ piece, isNumeric c) :
    piece.byteLength = piece.length := by
  induction piece with
  | nil => rfl
  | cons c piece ih =>
    simp only [List.mem_cons, forall_eq_or_imp] at h
    rw [Text.byteLength_cons, utf8Size_of_isNumeric h.1, ih h.2, List.length_cons, Nat.add_comm]

@[simp] theorem BinaryOp.utf8Size_toChar (op : BinaryOp) : op.toChar.utf8Size = 1 := by
  cases op <;> rfl

@[simp] theorem Sign.utf8Size_toChar (sign : Sign) : sign.toChar.utf8Size = 1 := by
  cases sign <;> rfl

/-- The token that a character is on its own is written as that character. -/
theorem Token.writes_of_ofChar? {c : Char} {token : Token} (h : Token.ofChar? c = some token) :
    token.Writes [c] ∧ c.utf8Size = 1 ∧ token.isNumber = false := by
  unfold Token.ofChar? at h
  split at h
  · cases h; exact ⟨rfl, rfl, rfl⟩
  · cases h; exact ⟨rfl, rfl, rfl⟩
  · obtain ⟨op, hop, rfl⟩ := Option.map_eq_some_iff.1 h
    obtain rfl := BinaryOp.ofChar?_eq_some_iff.1 hop
    exact ⟨rfl, op.utf8Size_toChar, rfl⟩

/-- A token that is no number is a character on its own, and one that no number contains. -/
theorem Token.Writes.single {token : Token} {piece : Text} (h : token.Writes piece)
    (hnumber : token.isNumber = false) :
    ∃ c, piece = [c] ∧ isNumeric c = false ∧ Token.ofChar? c = some token ∧ c.utf8Size = 1 := by
  cases token with
  | number => cases hnumber
  | operator op =>
    exact ⟨_, h, by cases op <;> rfl, by cases op <;> rfl, op.utf8Size_toChar⟩
  | opening => exact ⟨_, h, rfl, rfl, rfl⟩
  | closing => exact ⟨_, h, rfl, rfl, rfl⟩

theorem Token.Writes.ne_nil {token : Token} {piece : Text} (h : token.Writes piece) :
    piece ≠ [] := by
  rintro rfl
  cases token with
  | number value => cases h.2
  | _ => cases h

/-- The first character tells whether the first token is a number. -/
theorem Tiles.exists_head {start : Nat} {text : Text} {t : Lexeme} {tokens : List Lexeme}
    (h : Tiles start text (t :: tokens)) :
    ∃ c rest, text = c :: rest ∧ isNumeric c = t.token.isNumber := by
  cases h with
  | @cons _ token piece text _ hpiece _ =>
    obtain ⟨c, piece, rfl⟩ := List.exists_cons_of_ne_nil hpiece.ne_nil
    refine ⟨c, piece ++ text, rfl, ?_⟩
    cases hnumber : token.isNumber with
    | false =>
      obtain ⟨d, heq, hd, _⟩ := hpiece.single hnumber
      rw [(List.cons.inj heq).1, hd]
    | true =>
      cases token with
      | number value => exact hpiece.1 c (by simp)
      | _ => cases hnumber

theorem dropWhile_eq_self {p : Char → Bool} {text : Text} (h : ∀ c ∈ text.head?, p c = false) :
    text.dropWhile p = text := by
  cases text with
  | nil => rfl
  | cons c text => rw [List.dropWhile_cons_of_neg (by simp [h c rfl])]

theorem apart_cons {t : Lexeme} {tokens : List Lexeme} (h : Apart tokens)
    (hnext : ∀ u ∈ tokens.head?, t.token.isNumber → u.token.isNumber = false) :
    Apart (t :: tokens) := List.isChain_cons.2 ⟨hnext, h⟩

theorem Apart.of_append {a b : List Lexeme} (h : Apart (a ++ b)) : Apart a ∧ Apart b :=
  ⟨(List.isChain_append.1 h).1, (List.isChain_append.1 h).2.1⟩

theorem tiles_of_scanFrom {start : Nat} {text : Text} {tokens : List Lexeme}
    (h : scanFrom start text = .ok tokens) :
    Tiles start text tokens ∧ Apart tokens := by
  fun_induction scanFrom start text generalizing tokens with
  | case1 => cases h; exact ⟨.nil, .nil⟩
  | case2 => cases h
  | case3 start c text hc run value hread stop =>
    rename_i ih
    obtain ⟨rest, hrest, heq⟩ := bind_eq_ok.1 h
    cases heq
    obtain ⟨htiles, hapart⟩ := ih hrest
    have hall : ∀ d ∈ run, isNumeric d := Text.forall_mem_takeWhile hc text
    have hstop : stop = start + Text.byteLength run := by rw [byteLength_of_isNumeric hall]
    clear_value stop
    subst hstop
    refine ⟨?_, apart_cons hapart fun u hu _ => ?_⟩
    · have htiles := Tiles.cons (show (Token.number value).Writes run from ⟨hall, hread⟩) htiles
      rwa [List.cons_append, List.takeWhile_append_dropWhile] at htiles
    · cases rest with
      | nil => cases hu
      | cons u' rest =>
        cases hu
        obtain ⟨d, rest', heq, hd⟩ := htiles.exists_head
        rw [← hd]
        exact Text.head?_dropWhile isNumeric text d (by rw [heq]; rfl)
  | case4 => cases h
  | case5 start c text hc token htoken ih =>
    obtain ⟨rest, hrest, heq⟩ := bind_eq_ok.1 h
    cases heq
    obtain ⟨htiles, hapart⟩ := ih hrest
    obtain ⟨hwrites, hsize, hnumber⟩ := Token.writes_of_ofChar? htoken
    have hlength : Text.byteLength [c] = 1 := by simp [hsize]
    rw [← hlength] at htiles ⊢
    exact ⟨.cons hwrites htiles, apart_cons hapart fun u _ h => by simp [hnumber] at h⟩

/-- A text is scanned token by token, and what follows it after that, if no number goes on there. -/
theorem scanFrom_append {start : Nat} {text rest : Text} {tokens : List Lexeme}
    (h : Tiles start text tokens) (hapart : Apart tokens)
    (hborder : ∀ t ∈ tokens.getLast?, t.token.isNumber → ∀ c ∈ rest.head?, isNumeric c = false) :
    scanFrom start (text ++ rest) = do
      let after ← scanFrom (start + text.byteLength) rest
      return tokens ++ after := by
  induction h with
  | @nil start =>
    rw [List.nil_append, Text.byteLength_nil, Nat.add_zero]
    cases scanFrom start rest <;> rfl
  | @cons start token piece text tokens hpiece htiles ih =>
    obtain ⟨hnext, htail⟩ := List.isChain_cons.1 hapart
    have hscan : scanFrom (start + piece.byteLength) (text ++ rest) = do
        let after ← scanFrom (start + Text.byteLength (piece ++ text)) rest
        return tokens ++ after := by
      rw [Text.byteLength_append, ← Nat.add_assoc]
      refine ih htail fun t ht => hborder t ?_
      rw [List.getLast?_cons, Option.mem_def.1 ht]
      rfl
    rw [List.append_assoc]
    cases hnumber : token.isNumber with
    | false =>
      obtain ⟨c, rfl, hc, htoken, hsize⟩ := hpiece.single hnumber
      rw [Text.byteLength_cons, Text.byteLength_nil, Nat.add_zero, hsize] at hscan ⊢
      rw [List.singleton_append, scanFrom, if_neg (by simp [hc])]
      simp only [htoken, hscan]
      cases scanFrom _ rest <;> rfl
    | true =>
      obtain ⟨c, run, rfl⟩ := List.exists_cons_of_ne_nil hpiece.ne_nil
      cases token with
      | number value =>
        obtain ⟨hall, hread⟩ := hpiece
        obtain ⟨hc, hrun⟩ := List.forall_mem_cons.1 hall
        have hhead : ∀ d ∈ (text ++ rest).head?, isNumeric d = false := by
          cases htiles with
          | nil => exact hborder _ rfl rfl
          | cons hpiece htiles =>
            obtain ⟨e, text', heq, he⟩ := (Tiles.cons hpiece htiles).exists_head
            rw [heq]
            rintro d ⟨⟩
            rw [he]
            exact hnext _ rfl rfl
        have hdrop : (run ++ (text ++ rest)).dropWhile isNumeric = text ++ rest := by
          rw [List.dropWhile_append_of_pos hrun, dropWhile_eq_self hhead]
        have htake : (run ++ (text ++ rest)).takeWhile isNumeric = run := by
          have := List.takeWhile_append_dropWhile (p := isNumeric) (l := run ++ (text ++ rest))
          rw [hdrop] at this
          exact List.append_cancel_right this
        rw [byteLength_of_isNumeric hall] at hscan ⊢
        rw [List.cons_append, scanFrom, if_pos hc]
        simp only [htake, hdrop, hread, hscan]
        cases scanFrom _ rest <;> rfl
      | _ => cases hnumber

theorem scanFrom_of_tiles {start : Nat} {text : Text} {tokens : List Lexeme}
    (h : Tiles start text tokens) (hapart : Apart tokens) :
    scanFrom start text = .ok tokens := by
  have hend : scanFrom start (text ++ []) = do
      let after ← scanFrom (start + text.byteLength) []
      return tokens ++ after := scanFrom_append h hapart fun _ _ _ _ hc => nomatch hc
  rw [List.append_nil, scanFrom] at hend
  rw [hend]
  exact congrArg Except.ok (List.append_nil tokens)

/-- `scan` finds the one way to cut a text into tokens that leaves no two numbers side by side. -/
theorem scanFrom_eq_ok_iff {start : Nat} {text : Text} {tokens : List Lexeme} :
    scanFrom start text = .ok tokens ↔ Tiles start text tokens ∧ Apart tokens :=
  ⟨tiles_of_scanFrom, fun h => scanFrom_of_tiles h.1 h.2⟩

end Calculator
