import Calculator.Proofs.Grammar.Phrase
import Calculator.Proofs.Token.Tiling

/-! Where the nodes of an expression stand in the text it was read from. Main statement: each node
of a parsed text marks the piece that writes it, and its operands lie in there without gaps, but
for the operator and a plus that leaves no node. -/

namespace Calculator

/-! ### Pieces of a text -/

/-- The piece stands in the text at that byte offset. -/
def Text.Holds (source : Text) (offset : Nat) (piece : Text) : Prop :=
  ∃ before after : Text, source = before ++ piece ++ after ∧ offset = before.byteLength

theorem Text.Holds.left {source a b : Text} {offset : Nat} (h : source.Holds offset (a ++ b)) :
    source.Holds offset a := by
  obtain ⟨before, after, rfl, rfl⟩ := h
  exact ⟨before, b ++ after, by simp, rfl⟩

theorem Text.Holds.right {source a b : Text} {offset : Nat} (h : source.Holds offset (a ++ b)) :
    source.Holds (offset + a.byteLength) b := by
  obtain ⟨before, after, rfl, rfl⟩ := h
  exact ⟨before ++ a, after, by simp, by simp⟩

theorem Text.append_inj_of_byteLength {a b c d : Text} (h : a ++ b = c ++ d)
    (hlength : a.byteLength = c.byteLength) : a = c ∧ b = d := by
  induction a generalizing c with
  | nil =>
    cases c with
    | nil => exact ⟨rfl, h⟩
    | cons x c =>
      have := x.utf8Size_pos
      rw [byteLength_nil, byteLength_cons] at hlength
      omega
  | cons x a ih =>
    cases c with
    | nil =>
      have := x.utf8Size_pos
      rw [byteLength_nil, byteLength_cons] at hlength
      omega
    | cons y c =>
      rw [List.cons_append, List.cons_append, List.cons.injEq] at h
      obtain ⟨rfl, h⟩ := h
      obtain ⟨rfl, rfl⟩ := ih h (Nat.add_left_cancel hlength)
      exact ⟨rfl, rfl⟩

namespace Span

/-- The ends of the span are borders between characters, and the piece lies between them. -/
def Marks (span : Span) (source piece : Text) : Prop :=
  source.Holds span.start piece ∧ span.stop = span.start + piece.byteLength

theorem Marks.text_eq {span : Span} {source piece : Text} (h : span.Marks source piece) :
    span.text source = piece := by
  obtain ⟨⟨before, after, rfl, hstart⟩, hstop⟩ := h
  obtain ⟨start, stop⟩ := span
  obtain rfl : start = before.byteLength := hstart
  obtain rfl : stop = before.byteLength + piece.byteLength := hstop
  exact text_append before piece after

theorem cover_of_le {a b : Span} (hstart : a.start ≤ b.start) (hstop : a.stop ≤ b.stop) :
    a.cover b = ⟨a.start, b.stop⟩ := by
  rw [cover, Nat.min_eq_left hstart, Nat.max_eq_right hstop]

end Span

namespace Expr

/-- The expression and all that it consists of. -/
def nodes : Expr → List Expr
  | literal value span => [literal value span]
  | group inner span => group inner span :: inner.nodes
  | negate operand span => negate operand span :: operand.nodes
  | binary op left right span => binary op left right span :: (left.nodes ++ right.nodes)
  | adjacent left right span => adjacent left right span :: (left.nodes ++ right.nodes)

theorem self_mem_nodes (e : Expr) : e ∈ e.nodes := by
  cases e <;> exact List.mem_cons_self

theorem mem_nodes_trans {e node inner : Expr} (h : node ∈ e.nodes) (hinner : inner ∈ node.nodes) :
    inner ∈ e.nodes := by
  induction e with
  | literal value span =>
    obtain rfl := List.mem_singleton.1 h
    exact hinner
  | group operand span ih | negate operand span ih =>
    rcases List.mem_cons.1 h with rfl | h
    · exact hinner
    · exact List.mem_cons_of_mem _ (ih h)
  | binary op left right span ihl ihr | adjacent left right span ihl ihr =>
    rcases List.mem_cons.1 h with rfl | h
    · exact hinner
    · refine List.mem_cons_of_mem _ (List.mem_append.2 ?_)
      exact (List.mem_append.1 h).imp ihl ihr

theorem mem_nodes_of_adjacent {e left right : Expr} {span : Span}
    (h : adjacent left right span ∈ e.nodes) : left ∈ e.nodes ∧ right ∈ e.nodes := by
  constructor
  · exact mem_nodes_trans h (by simp [nodes, left.self_mem_nodes])
  · exact mem_nodes_trans h (by simp [nodes, right.self_mem_nodes])

theorem mem_nodes_of_binary {e left right : Expr} {op : BinaryOp} {span : Span}
    (h : binary op left right span ∈ e.nodes) : left ∈ e.nodes ∧ right ∈ e.nodes := by
  constructor
  · exact mem_nodes_trans h (by simp [nodes, left.self_mem_nodes])
  · exact mem_nodes_trans h (by simp [nodes, right.self_mem_nodes])

/-- How a node and its operands stand in the text. -/
def Placed (source : Text) : Expr → Prop
  | literal value span =>
    ∃ run x, (Token.number x).Writes run ∧
      (span.Marks source run ∧ value = x ∨
        ∃ sign : Sign, span.Marks source (sign.toChar :: run) ∧ value = sign.apply x)
  | group inner span =>
    (∃ inside, span.Marks source ('(' :: inside ++ [')'])) ∧ inner.span.stop + 1 = span.stop ∧
      (inner.span.start = span.start + 1 ∨
        inner.span.start = span.start + 2 ∧ source.Holds (span.start + 1) ['+'])
  | negate operand span =>
    (∃ rest, span.Marks source ('-' :: rest)) ∧ operand.span.start = span.start + 1 ∧
      operand.span.stop = span.stop
  | binary op left right span =>
    (∃ piece, span.Marks source piece) ∧ span = ⟨left.span.start, right.span.stop⟩ ∧
      ((⟨left.span.stop, right.span.start⟩ : Span).Marks source [op.toChar] ∨
        (⟨left.span.stop, right.span.start⟩ : Span).Marks source [op.toChar, '+'])
  | adjacent left right span =>
    (∃ piece, span.Marks source piece) ∧ span = ⟨left.span.start, right.span.stop⟩ ∧
      left.span.stop = right.span.start

end Expr

/-! ### Signed numbers -/

/-- As `Writes`, but a number may have its sign in front. -/
def Token.WritesSigned : Token → Text → Prop
  | .number value, piece => ∃ run x, (Token.number x).Writes run ∧
    (piece = run ∧ value = x ∨ ∃ sign : Sign, piece = sign.toChar :: run ∧ value = sign.apply x)
  | token, piece => token.Writes piece

theorem Token.Writes.signed {token : Token} {piece : Text} (h : token.Writes piece) :
    token.WritesSigned piece := by
  cases token with
  | number value => exact ⟨piece, value, h, .inl ⟨rfl, rfl⟩⟩
  | _ => exact h

theorem Token.Writes.eq_of_sign? {token : Token} {piece : Text} {sign : Sign}
    (h : token.Writes piece) (hsign : token.sign? = some sign) : piece = [sign.toChar] := by
  obtain rfl | rfl : token = .operator .add ∨ token = .operator .sub := by
    unfold Token.sign? at hsign
    split at hsign <;> simp_all
  all_goals
    cases hsign
    exact h

/-- As `Tiles`, but the first token may be a number with its sign in front. -/
inductive TilesSigned : (start : Nat) → Text → List Lexeme → Prop
  | nil {start} : TilesSigned start [] []
  | cons {start token piece text tokens} : token.WritesSigned piece →
    Tiles (start + piece.byteLength) text tokens →
    TilesSigned start (piece ++ text) (⟨token, ⟨start, start + piece.byteLength⟩⟩ :: tokens)

theorem Tiles.signed {start : Nat} {text : Text} {tokens : List Lexeme}
    (h : Tiles start text tokens) : TilesSigned start text tokens := by
  cases h with
  | nil => exact .nil
  | cons hpiece hrest => exact .cons hpiece.signed hrest

theorem TilesSigned.split {start : Nat} {text : Text} {before after : List Lexeme}
    (h : TilesSigned start text (before ++ after)) (hne : before ≠ []) :
    ∃ a b, text = a ++ b ∧ TilesSigned start a before ∧ Tiles (start + a.byteLength) b after := by
  obtain ⟨t, before, rfl⟩ := List.exists_cons_of_ne_nil hne
  cases h with
  | cons hpiece hrest =>
    obtain ⟨a, b, rfl, ha, hb⟩ := hrest.split
    exact ⟨_ ++ a, b, by rw [List.append_assoc], .cons hpiece ha, by simpa [Nat.add_assoc] using hb⟩

/-- A sign and the number after it, read as one number. -/
theorem Tiles.fuse {start : Nat} {text : Text} {t : Lexeme} {sign : Sign} {value : Float}
    {span : Span} {rest : List Lexeme}
    (h : Tiles start text (t :: ⟨.number value, span⟩ :: rest))
    (hsign : t.token.sign? = some sign) :
    TilesSigned start text (⟨.number (sign.apply value), t.span.cover span⟩ :: rest) := by
  cases h with
  | cons hpiece hrest =>
    obtain rfl := hpiece.eq_of_sign? hsign
    cases hrest with
    | @cons _ _ run text _ hnumber hrest =>
      have hsigned : (Token.number (sign.apply value)).WritesSigned (sign.toChar :: run) :=
        ⟨run, value, hnumber, .inr ⟨sign, rfl, rfl⟩⟩
      have hlength : start + Text.byteLength [sign.toChar] + run.byteLength =
          start + Text.byteLength (sign.toChar :: run) := by
        simp [Nat.add_assoc]
      have hspan : (⟨start, start + Text.byteLength [sign.toChar]⟩ : Span).cover
          ⟨start + Text.byteLength [sign.toChar],
            start + Text.byteLength [sign.toChar] + run.byteLength⟩ =
          ⟨start, start + Text.byteLength (sign.toChar :: run)⟩ := by
        rw [Span.cover_of_le (Nat.le_add_right ..) (Nat.le_add_right ..), hlength]
      rw [hlength] at hrest
      rw [hspan]
      exact .cons hsigned hrest

namespace Grammar

/-- The tokens of a phrase as tiles. Where a sign may be part of a number, the number comes
first. -/
def Form.Tiled : Form → (start : Nat) → Text → List Lexeme → Prop
  | level _ _ => Tiles
  | _ => TilesSigned

theorem Form.tiled_of_tiles {form : Form} {start : Nat} {text : Text} {tokens : List Lexeme}
    (h : Tiles start text tokens) : form.Tiled start text tokens := by
  cases form with
  | level ops position => exact h
  | _ => exact h.signed

section

variable {form : Form} {start : Nat} {text : Text} {t : Lexeme} {before after : List Lexeme}

theorem Form.Tiled.split (h : form.Tiled start text (before ++ after)) (hne : before ≠ []) :
    ∃ a b, text = a ++ b ∧ form.Tiled start a before ∧ Tiles (start + a.byteLength) b after := by
  cases form with
  | level ops position => exact Tiles.split h
  | _ => exact TilesSigned.split h hne

theorem Form.Tiled.start_eq (h : form.Tiled start text (t :: after)) : t.span.start = start := by
  cases form <;> cases h <;> rfl

theorem Form.Tiled.tiles (h : form.Tiled start text (t :: after))
    (ht : t.token.isNumber = false) : Tiles start text (t :: after) := by
  cases form with
  | level ops position => exact h
  | _ =>
    obtain ⟨token, span⟩ := t
    cases token with
    | number => cases ht
    | _ =>
      cases h with
      | cons hpiece hrest => exact .cons hpiece hrest

end

/-- Where the expression of a phrase begins: after a plus in front of it, if there is one. -/
def Form.Begins : Form → (start : Nat) → Text → (first : Nat) → Prop
  | level _ _, start, text, first =>
    first = start ∨ first = start + 1 ∧ text.head? = some '+'
  | _, start, _, first => first = start

/-- The expression of a phrase stands at the phrase. -/
structure Form.Places (form : Form) (source : Text) (start : Nat) (text : Text) (e : Expr) :
    Prop where
  nodes : ∀ node ∈ e.nodes, node.Placed source
  begins : form.Begins start text e.span.start
  ends : e.span.stop = start + text.byteLength

section

variable {form : Form} {source text a b : Text} {start first : Nat} {left right : Expr}

/-- What is left of a phrase that holds, from where its expression begins. -/
theorem Form.Begins.holds (h : form.Begins start text first) (hs : source.Holds start text) :
    ∃ piece, source.Holds first piece ∧ start + text.byteLength = first + piece.byteLength := by
  have hself : ∃ piece, source.Holds start piece ∧
      start + text.byteLength = start + piece.byteLength := ⟨text, hs, rfl⟩
  cases form with
  | level ops position =>
    rcases h with rfl | ⟨rfl, hplus⟩
    · exact hself
    · obtain ⟨rest, rfl⟩ := List.head?_eq_some_iff.1 hplus
      refine ⟨rest, Text.Holds.right (a := ['+']) hs, ?_⟩
      simp [Nat.add_assoc, show '+'.utf8Size = 1 from rfl]
  | _ =>
    obtain rfl := h
    exact hself

theorem Form.Begins.le (h : form.Begins start text first) : start ≤ first := by
  cases form with
  | level ops position => rcases h with rfl | ⟨rfl, _⟩ <;> omega
  | _ => exact Nat.le_of_eq (Eq.symm h)

theorem Form.Begins.append (h : form.Begins start a first) : form.Begins start (a ++ b) first := by
  cases form with
  | level ops position =>
    rcases h with h | ⟨h, hplus⟩
    · exact .inl h
    · exact .inr ⟨h, by simp [hplus]⟩
  | _ => exact h

theorem Form.Places.start_le (h : form.Places source start text left)
    (hs : source.Holds start text) : left.span.start ≤ start + text.byteLength := by
  obtain ⟨piece, _, hlength⟩ := h.begins.holds hs
  omega

/-- Two operands with an operator between them. -/
theorem Form.Places.join {ops : List BinaryOp} {position : Position} {op : BinaryOp}
    (hl : form.Places source start a left)
    (hr : (Form.level ops position).Places source (start + a.byteLength + 1) b right)
    (hs : source.Holds start (a ++ op.toChar :: b)) :
    form.Places source start (a ++ op.toChar :: b) (.join op left right) := by
  have hoperator : source.Holds left.span.stop (op.toChar :: b) := hl.ends ▸ hs.right
  have hlength : start + Text.byteLength (a ++ op.toChar :: b) = right.span.stop := by
    rw [hr.ends]
    simp [Nat.add_assoc]
  have hspan : left.span.cover right.span = ⟨left.span.start, right.span.stop⟩ := by
    have hle := hl.start_le hs.left
    have hbegin := hr.begins.le
    exact Span.cover_of_le (by omega) (by rw [hl.ends, hr.ends]; omega)
  have hbegins : form.Begins start (a ++ op.toChar :: b) left.span.start := hl.begins.append
  have hbetween : (⟨left.span.stop, right.span.start⟩ : Span).Marks source [op.toChar] ∨
      (⟨left.span.stop, right.span.start⟩ : Span).Marks source [op.toChar, '+'] := by
    rcases hr.begins with hstart | ⟨hstart, hplus⟩
    · exact .inl ⟨hoperator.left, by simp [hstart, hl.ends]⟩
    · obtain ⟨rest, rfl⟩ := List.head?_eq_some_iff.1 hplus
      refine .inr ⟨Text.Holds.left (b := rest) hoperator, ?_⟩
      simp [hstart, hl.ends, show '+'.utf8Size = 1 from rfl]
  refine ⟨?_, ?_, ?_⟩
  · intro node hnode
    rcases List.mem_cons.1 hnode with rfl | hnode
    · obtain ⟨piece, hpiece, hend⟩ := hbegins.holds hs
      rw [hspan]
      exact ⟨⟨piece, hpiece, hlength ▸ hend⟩, rfl, hbetween⟩
    · exact (List.mem_append.1 hnode).elim (hl.nodes node) (hr.nodes node)
  · rwa [Expr.join, Expr.span, hspan]
  · rw [Expr.join, Expr.span, hspan, hlength]

/-- Two operands side by side. -/
theorem Form.Places.beside (hl : Form.chain.Places source start a left)
    (hr : Form.primary.Places source (start + a.byteLength) b right)
    (hs : source.Holds start (a ++ b)) :
    Form.chain.Places source start (a ++ b) (left.beside right) := by
  have htouch : left.span.stop = right.span.start := hl.ends.trans (Eq.symm hr.begins)
  have hlength : start + Text.byteLength (a ++ b) = right.span.stop := by
    rw [hr.ends, Text.byteLength_append, Nat.add_assoc]
  have hspan : left.span.cover right.span = ⟨left.span.start, right.span.stop⟩ := by
    have hle := hl.start_le hs.left
    have hbegin : right.span.start = start + a.byteLength := hr.begins
    exact Span.cover_of_le (by omega) (by rw [hl.ends, hr.ends]; omega)
  have hbegin : left.span.start = start := hl.begins
  refine ⟨?_, ?_, ?_⟩
  · intro node hnode
    rcases List.mem_cons.1 hnode with rfl | hnode
    · rw [hspan]
      exact ⟨⟨a ++ b, by rwa [hbegin], by rw [← hlength, hbegin]⟩, rfl, htouch⟩
    · exact (List.mem_append.1 hnode).elim (hl.nodes node) (hr.nodes node)
  · rwa [Expr.beside, Expr.span, hspan]
  · rw [Expr.beside, Expr.span, hspan, hlength]

theorem Form.Places.group {ops : List BinaryOp} {position : Position}
    (h : (Form.level ops position).Places source (start + 1) a left)
    (hs : source.Holds start ('(' :: (a ++ [')']))) :
    Form.primary.Places source start ('(' :: (a ++ [')']))
      (.group left ⟨start, start + 1 + a.byteLength + 1⟩) := by
  have hlength : start + Text.byteLength ('(' :: (a ++ [')'])) = start + 1 + a.byteLength + 1 := by
    simp [show '('.utf8Size = 1 from rfl, show ')'.utf8Size = 1 from rfl]
    omega
  have hinside : source.Holds (start + 1) (a ++ [')']) := Text.Holds.right (a := ['(']) hs
  refine ⟨?_, rfl, Eq.symm hlength⟩
  intro node hnode
  rcases List.mem_cons.1 hnode with rfl | hnode
  · refine ⟨⟨a, hs, Eq.symm hlength⟩, by rw [h.ends], ?_⟩
    rcases h.begins with hstart | ⟨hstart, hplus⟩
    · exact .inl hstart
    · obtain ⟨rest, rfl⟩ := List.head?_eq_some_iff.1 hplus
      exact .inr ⟨hstart, Text.Holds.left (b := rest ++ [')']) hinside⟩
  · exact h.nodes node hnode

theorem Form.Places.signed {ops : List BinaryOp} {position : Position} {sign : Sign}
    (h : Form.power.Places source (start + 1) a left)
    (hs : source.Holds start (sign.toChar :: a)) :
    (Form.level ops position).Places source start (sign.toChar :: a)
      (signed ⟨start, start + 1⟩ left sign) := by
  have hlength : start + Text.byteLength (sign.toChar :: a) = left.span.stop := by
    rw [h.ends, Text.byteLength_cons, Sign.utf8Size_toChar, Nat.add_assoc]
  have hbegin : left.span.start = start + 1 := h.begins
  cases sign with
  | plus => exact ⟨h.nodes, .inr ⟨hbegin, rfl⟩, Eq.symm hlength⟩
  | minus =>
    have hspan : (⟨start, start + 1⟩ : Span).cover left.span = ⟨start, left.span.stop⟩ := by
      refine Span.cover_of_le ?_ ?_ <;> dsimp only <;> have := h.ends <;> omega
    rw [Grammar.signed, hspan]
    refine ⟨?_, .inl rfl, Eq.symm hlength⟩
    intro node hnode
    rcases List.mem_cons.1 hnode with rfl | hnode
    · exact ⟨⟨a, hs, Eq.symm hlength⟩, hbegin, rfl⟩
    · exact h.nodes node hnode

end

theorem Phrase.places {room : Nat} {form : Form} {tokens : List Lexeme} {e : Expr}
    (h : Phrase room form tokens e) {source text : Text} {start : Nat}
    (ht : form.Tiled start text tokens) (hs : source.Holds start text) :
    form.Places source start text e := by
  induction h generalizing start text with
  | number =>
    cases ht with
    | cons hpiece hrest =>
      cases hrest
      obtain ⟨run, x, hrun, hsign⟩ := hpiece
      rw [List.append_nil] at hs ⊢
      refine ⟨?_, rfl, rfl⟩
      intro node hnode
      obtain rfl := List.mem_singleton.1 hnode
      refine ⟨run, x, hrun, ?_⟩
      rcases hsign with ⟨rfl, hvalue⟩ | ⟨sign, rfl, hvalue⟩
      · exact .inl ⟨⟨hs, rfl⟩, hvalue⟩
      · exact .inr ⟨sign, ⟨hs, rfl⟩, hvalue⟩
  | group h ih =>
    cases ht with
    | cons hpiece hrest =>
      obtain rfl := hpiece
      obtain ⟨a, b, rfl, ha, hb⟩ := hrest.split
      cases hb with
      | cons hclosing hrest =>
        obtain rfl := hclosing
        cases hrest
        rw [List.append_nil] at hs ⊢
        have hspan (m n : Nat) : (⟨m, m + 1⟩ : Span).cover ⟨m + 1 + n, m + 1 + n + 1⟩ =
            ⟨m, m + 1 + n + 1⟩ := Span.cover_of_le (by dsimp only; omega) (by dsimp only; omega)
        have h := (ih ha (Text.Holds.right (a := ['(']) hs).left).group hs
        rw [← hspan] at h
        exact h
  | single _ ih | unraised _ ih | tighter _ ih =>
    obtain ⟨hnodes, hbegins, hends⟩ := ih ht hs
    exact ⟨hnodes, hbegins, hends⟩
  | beside hl hr ihl ihr =>
    obtain ⟨a, b, rfl, ha, hb⟩ := ht.split hl.ne_nil
    exact (ihl ha hs.left).beside (ihr hb.signed hs.right) hs
  | raised hl hr ihl ihr =>
    obtain ⟨a, b, rfl, ha, hb⟩ := ht.split hl.ne_nil
    cases hb with
    | @cons _ _ piece b _ hpiece hrest =>
      obtain rfl : piece = [BinaryOp.pow.toChar] := hpiece
      obtain ⟨hnodes, hbegins, hends⟩ :=
        (ihl ha hs.left).join (ihr hrest (Text.Holds.right (a := [_]) hs.right)) hs
      exact ⟨hnodes, hbegins, hends⟩
  | unsigned _ ih =>
    obtain ⟨hnodes, hbegins, hends⟩ := ih (Tiles.signed ht) hs
    exact ⟨hnodes, .inl hbegins, hends⟩
  | fused hsign _ ih =>
    obtain ⟨hnodes, hbegins, hends⟩ := ih (Tiles.fuse ht hsign) hs
    exact ⟨hnodes, .inl hbegins, hends⟩
  | @signed _ position t sign tokens operand hsign hplain h ih =>
    cases ht with
    | cons hpiece hrest =>
      obtain rfl := hpiece.eq_of_sign? hsign
      rw [Text.byteLength_cons, Sign.utf8Size_toChar, Text.byteLength_nil] at hrest ⊢
      have hafter := Text.Holds.right (a := [_]) hs
      rw [Text.byteLength_cons, Sign.utf8Size_toChar, Text.byteLength_nil] at hafter
      exact (ih hrest.signed hafter).signed hs
  | join hl hr ihl ihr =>
    obtain ⟨a, b, rfl, ha, hb⟩ := Tiles.split ht
    cases hb with
    | @cons _ _ piece b _ hpiece hrest =>
      obtain rfl := hpiece
      rw [Text.byteLength_cons, BinaryOp.utf8Size_toChar, Text.byteLength_nil] at hrest
      have hafter := Text.Holds.right (a := [_]) hs.right
      rw [Text.byteLength_cons, BinaryOp.utf8Size_toChar, Text.byteLength_nil] at hafter
      exact (ihl ha hs.left).join (ihr hrest hafter) hs

end Grammar

theorem places_of_parseText {limits : Limits} {source : Text} {e : Expr}
    (h : parseText limits source = .ok e) :
    (Grammar.Form.level Grammar.additive .leading).Places source 0 source e := by
  obtain ⟨tokens, hscan, hparse⟩ := Grammar.bind_eq_ok.1 h
  have htiles : Tiles 0 source tokens := (scanFrom_eq_ok_iff.1 hscan).1
  have hholds : source.Holds 0 source := ⟨[], [], by simp, rfl⟩
  exact (Grammar.phrase_of_parse hparse).places htiles hholds

/-- Every node of a parsed text stands where its span says, and the whole begins with the text,
but for a plus in front, and ends with it. -/
theorem placed_of_parseText {limits : Limits} {source : Text} {e : Expr}
    (h : parseText limits source = .ok e) :
    (∀ node ∈ e.nodes, node.Placed source) ∧ e.span.stop = source.byteLength ∧
      (e.span.start = 0 ∨ e.span.start = 1 ∧ source.head? = some '+') := by
  obtain ⟨hnodes, hbegins, hends⟩ := places_of_parseText h
  rw [Nat.zero_add] at hends
  exact ⟨hnodes, hends, hbegins⟩

/-- Pluses in front of the whole and after the `*` leave no node. -/
theorem placed_of_parseText_pluses : ∃ e, parseText {} "+(1)*+2^-(3)4".toList = .ok e ∧
    (∀ node ∈ e.nodes, node.Placed "+(1)*+2^-(3)4".toList) ∧ e.span = ⟨1, 13⟩ := by
  have h : parseText {} "+(1)*+2^-(3)4".toList =
      .ok (.join .mul (.group (.literal 1 ⟨2, 3⟩) ⟨1, 4⟩)
        (.join .pow (.literal 2 ⟨6, 7⟩)
          (.negate (.beside (.group (.literal 3 ⟨10, 11⟩) ⟨9, 12⟩) (.literal 4 ⟨12, 13⟩))
            ⟨8, 13⟩))) := by
    decide +kernel
  exact ⟨_, h, (placed_of_parseText h).1, rfl⟩

end Calculator
