import Calculator.Proofs.Expr.Sides

/-! Divisions in exponents. Main statement: an exponent is read as a fraction exactly if it is a
group, or the negative of one, with a division in it that is in no further group. The fraction is
what the group holds, cut at the first such division. -/

namespace Calculator

open Fraction (depthAfter splitSlash? splitSlash?_cons)
open Grammar (bind_eq_ok)

/-! ### Slashes in a text -/

theorem Fraction.depthAfter_add {n : Nat} {c : Char} (h : c = ')' → 0 < n) (k : Nat) :
    depthAfter (n + k) c = depthAfter n c + k := by
  unfold depthAfter
  split
  · omega
  · split
    · next hc =>
      have := h hc
      omega
    · rfl

namespace Text

/-- The text closes its own parentheses and `depth` more that are open in front, and no others. -/
def Closes (depth : Nat) : Text → Prop
  | [] => depth = 0
  | c :: text => (c = ')' → 0 < depth) ∧ Closes (depthAfter depth c) text

/-- The offsets of the slashes that no parentheses enclose, when `depth` of them are open in front
and the text begins at `start`. -/
def slashes (depth start : Nat) : Text → List Nat
  | [] => []
  | c :: text =>
    (if c = '/' ∧ depth = 0 then [start] else []) ++
      slashes (depthAfter depth c) (start + c.utf8Size) text

section

variable {depth start n k : Nat} {a b text : Text}

theorem Closes.append (ha : Closes n a) (hb : Closes k b) : Closes (n + k) (a ++ b) := by
  induction a generalizing n with
  | nil =>
    obtain rfl : n = 0 := ha
    rwa [Nat.zero_add]
  | cons c a ih =>
    obtain ⟨hc, ha⟩ := ha
    refine ⟨fun h => Nat.lt_add_right k (hc h), ?_⟩
    rw [Fraction.depthAfter_add hc]
    exact ih ha

/-- Past what closes `n` parentheses, that many less are open. -/
theorem slashes_append (ha : Closes n a) :
    slashes (n + k) start (a ++ b) =
      slashes (n + k) start a ++ slashes k (start + a.byteLength) b := by
  induction a generalizing n start with
  | nil =>
    obtain rfl : n = 0 := ha
    simp [slashes]
  | cons c a ih =>
    obtain ⟨hc, ha⟩ := ha
    rw [List.cons_append, slashes, slashes, Fraction.depthAfter_add hc, ih ha, List.append_assoc,
      byteLength_cons, Nat.add_assoc]

/-- What does not close all that is open has no slash outside. -/
theorem slashes_eq_nil (ha : Closes n a) (hk : 0 < k) : slashes (n + k) start a = [] := by
  induction a generalizing n start with
  | nil => rfl
  | cons c a ih =>
    obtain ⟨hc, ha⟩ := ha
    rw [slashes, Fraction.depthAfter_add hc, ih ha, if_neg (by omega)]
    rfl

theorem le_of_mem_slashes {m : Nat} (h : m ∈ slashes depth start text) : start ≤ m := by
  induction text generalizing depth start with
  | nil => cases h
  | cons c text ih =>
    rcases List.mem_append.1 h with h | h
    · split at h
      · exact Nat.le_of_eq (List.mem_singleton.1 h).symm
      · cases h
    · exact Nat.le_trans (Nat.le_add_right ..) (ih h)

/-- A text is cut at the first of its slashes. -/
theorem head?_slashes :
    (slashes depth start text).head? =
      (splitSlash? depth text).map fun sides => start + sides.1.byteLength := by
  induction text generalizing depth start with
  | nil => rfl
  | cons c text ih =>
    by_cases hc : c = '/' ∧ depth = 0
    · rw [slashes, splitSlash?, if_pos hc, if_pos hc]
      rfl
    · rw [slashes, splitSlash?_cons hc, if_neg hc, List.nil_append, ih, Option.map_map]
      simp [Function.comp_def, Nat.add_assoc]

theorem le_of_head?_slashes {m : Nat} (h : (slashes depth start text).head? = some m) :
    ∀ p ∈ slashes depth start text, m ≤ p := by
  induction text generalizing depth start with
  | nil => cases h
  | cons c text ih =>
    rw [slashes] at h ⊢
    by_cases hc : c = '/' ∧ depth = 0
    · rw [if_pos hc] at h ⊢
      cases h
      rintro p (_ | ⟨_, hp⟩)
      · exact Nat.le_refl _
      · exact Nat.le_trans (Nat.le_add_right ..) (le_of_mem_slashes hp)
    · rw [if_neg hc] at h ⊢
      exact ih h

/-- Both sides of a slash outside close what they open. -/
theorem Closes.sides {numerator denominator : Text} (h : Closes depth text)
    (hsplit : splitSlash? depth text = some (numerator, denominator)) :
    Closes depth numerator ∧ Closes 0 denominator := by
  induction text generalizing depth numerator with
  | nil => cases hsplit
  | cons c text ih =>
    obtain ⟨hclosing, htext⟩ := h
    by_cases hc : c = '/' ∧ depth = 0
    · rw [splitSlash?, if_pos hc] at hsplit
      cases hsplit
      obtain ⟨rfl, rfl⟩ := hc
      exact ⟨rfl, htext⟩
    · rw [splitSlash?_cons hc] at hsplit
      obtain ⟨⟨before, after⟩, hsplit, heq⟩ := Option.map_eq_some_iff.1 hsplit
      cases heq
      obtain ⟨hbefore, hafter⟩ := ih htext hsplit
      exact ⟨⟨hclosing, hbefore⟩, hafter⟩

end

end Text

/-! ### Divisions in a tree -/

namespace Expr

/-- The expression and all that it consists of, but for the insides of groups. -/
def outer : Expr → List Expr
  | literal value span => [literal value span]
  | group inner span => [group inner span]
  | negate operand span => negate operand span :: operand.outer
  | binary op left right span => binary op left right span :: (left.outer ++ right.outer)
  | adjacent left right span => adjacent left right span :: (left.outer ++ right.outer)

/-- The offsets of the slashes of the divisions that are in no group, from left to right. -/
def slashes : Expr → List Nat
  | literal .. | group .. => []
  | negate operand _ => operand.slashes
  | binary op left right _ =>
    left.slashes ++ (if op = .div then [left.span.stop] else []) ++ right.slashes
  | adjacent left right _ => left.slashes ++ right.slashes

theorem mem_slashes_iff {e : Expr} {n : Nat} :
    n ∈ e.slashes ↔
      ∃ left right span, .binary .div left right span ∈ e.outer ∧ left.span.stop = n := by
  induction e with
  | literal | group => simp [slashes, outer]
  | negate operand span ih => simp [slashes, outer, ih]
  | binary op left right span ihl ihr =>
    simp only [slashes, outer, List.mem_append, ihl, ihr, List.mem_cons, binary.injEq]
    constructor
    · rintro ((⟨l, r, s, h, hn⟩ | h) | ⟨l, r, s, h, hn⟩)
      · exact ⟨l, r, s, .inr (.inl h), hn⟩
      · split at h
        · next hop =>
          exact ⟨left, right, span, .inl ⟨hop.symm, rfl, rfl, rfl⟩, (List.mem_singleton.1 h).symm⟩
        · cases h
      · exact ⟨l, r, s, .inr (.inr h), hn⟩
    · rintro ⟨l, r, s, ⟨rfl, rfl, rfl, rfl⟩ | h | h, hn⟩
      · exact .inl (.inr (List.mem_singleton.2 hn.symm))
      · exact .inl (.inl ⟨l, r, s, h, hn⟩)
      · exact .inr ⟨l, r, s, h, hn⟩
  | adjacent left right span ihl ihr =>
    simp only [slashes, outer, List.mem_append, ihl, ihr, List.mem_cons, reduceCtorEq, false_or]
    constructor
    · rintro (⟨l, r, s, h, hn⟩ | ⟨l, r, s, h, hn⟩)
      · exact ⟨l, r, s, .inl h, hn⟩
      · exact ⟨l, r, s, .inr h, hn⟩
    · rintro ⟨l, r, s, h | h, hn⟩
      · exact .inl ⟨l, r, s, h, hn⟩
      · exact .inr ⟨l, r, s, h, hn⟩

end Expr

/-! ### The text and its tree -/

namespace Text

/-- The text closes what it opens, and its slashes outside parentheses are those given. -/
structure HasSlashes (text : Text) (start : Nat) (offsets : List Nat) : Prop where
  closes : text.Closes 0
  slashes_eq : offsets = text.slashes 0 start

namespace HasSlashes

variable {start : Nat} {a b : Text} {l r : List Nat}

theorem append (ha : a.HasSlashes start l) (hb : b.HasSlashes (start + a.byteLength) r) :
    (a ++ b).HasSlashes start (l ++ r) := by
  refine ⟨ha.closes.append hb.closes, ?_⟩
  have happend := @slashes_append start 0 0 a b ha.closes
  rw [ha.slashes_eq, hb.slashes_eq]
  exact happend.symm

/-- A text without parentheses and slashes. -/
theorem of_forall (h : ∀ c ∈ a, c ≠ '(' ∧ c ≠ ')' ∧ c ≠ '/') : a.HasSlashes start [] := by
  induction a generalizing start with
  | nil => exact ⟨rfl, rfl⟩
  | cons c a ih =>
    obtain ⟨⟨hopening, hclosing, hslash⟩, ha⟩ := List.forall_mem_cons.1 h
    have hdepth : depthAfter 0 c = 0 := by simp [depthAfter, hopening, hclosing]
    obtain ⟨hcloses, hslashes⟩ := @ih (start + c.utf8Size) ha
    refine ⟨⟨fun hc => absurd hc hclosing, ?_⟩, ?_⟩
    · rwa [hdepth]
    · rw [Text.slashes, hdepth, if_neg (by simp [hslash])]
      exact hslashes

theorem of_isNumeric (h : ∀ c ∈ a, isNumeric c) : a.HasSlashes start [] :=
  of_forall fun c hc => by
    have hnumeric := h c hc
    refine ⟨?_, ?_, ?_⟩ <;> rintro rfl <;> cases hnumeric

theorem of_sign (sign : Sign) : HasSlashes [sign.toChar] start [] :=
  of_forall fun c hc => by
    rw [List.mem_singleton.1 hc]
    cases sign <;> decide

theorem operator (op : BinaryOp) :
    HasSlashes [op.toChar] start (if op = .div then [start] else []) := by
  cases op <;> exact ⟨⟨by decide, rfl⟩, rfl⟩

theorem enclose (h : a.HasSlashes (start + 1) l) :
    HasSlashes ('(' :: (a ++ [')'])) start [] := by
  have hclosing : Closes 1 [')'] := ⟨fun _ => Nat.one_pos, rfl⟩
  have hinside := h.closes.append hclosing
  have hnone := @slashes_eq_nil (start + 1) 0 1 a h.closes Nat.one_pos
  have happend := @slashes_append (start + 1) 0 1 a [')'] h.closes
  rw [hnone] at happend
  exact ⟨⟨nofun, hinside⟩, happend.symm⟩

theorem join {op : BinaryOp} {left right : Expr} (ha : a.HasSlashes start left.slashes)
    (hb : b.HasSlashes (start + a.byteLength + 1) right.slashes)
    (hstop : left.span.stop = start + a.byteLength) :
    (a ++ op.toChar :: b).HasSlashes start (Expr.join op left right).slashes := by
  rw [Expr.join, Expr.slashes, List.append_assoc, hstop]
  refine ha.append ((operator op).append ?_)
  rwa [byteLength_cons, BinaryOp.utf8Size_toChar]

end HasSlashes

end Text

namespace Grammar

theorem slashes_signed (place : Span) (operand : Expr) (sign : Sign) :
    (signed place operand sign).slashes = operand.slashes := by
  cases sign <;> rfl

/-- The tree has its divisions in no group where the text has a slash in no parentheses. -/
theorem Phrase.hasSlashes {room : Nat} {form : Form} {tokens : List Lexeme} {e : Expr}
    (h : Phrase room form tokens e) {source text : Text} {start : Nat}
    (ht : form.Tiled start text tokens) (hs : source.Holds start text) :
    text.HasSlashes start e.slashes := by
  induction h generalizing start text with
  | number =>
    cases ht with
    | cons hpiece hrest =>
      cases hrest
      obtain ⟨run, x, hrun, ⟨rfl, _⟩ | ⟨sign, rfl, _⟩⟩ := hpiece
      · rw [List.append_nil]
        exact .of_isNumeric hrun.1
      · rw [List.append_nil]
        exact (Text.HasSlashes.of_sign sign).append (.of_isNumeric hrun.1)
  | group h ih =>
    cases ht with
    | cons hpiece hrest =>
      obtain rfl := hpiece
      obtain ⟨a, b, rfl, ha, hb⟩ := hrest.split
      cases hb with
      | cons hclosing hrest =>
        obtain rfl := hclosing
        cases hrest
        exact (ih ha (Text.Holds.right (a := ['(']) hs).left).enclose
  | single _ ih | unraised _ ih | tighter _ ih => exact ih ht hs
  | unsigned _ ih => exact ih (Tiles.signed ht) hs
  | beside hl hr ihl ihr =>
    obtain ⟨a, b, rfl, ha, hb⟩ := ht.split hl.ne_nil
    exact (ihl ha hs.left).append (ihr hb.signed hs.right)
  | raised hl hr ihl ihr =>
    obtain ⟨a, b, rfl, ha, hb⟩ := ht.split hl.ne_nil
    cases hb with
    | cons hpiece hrest =>
      obtain rfl := hpiece
      have hafter := Text.Holds.right (a := [_]) hs.right
      exact (ihl ha hs.left).join (ihr hrest hafter) (hl.places ha hs.left).ends
  | fused hsign _ ih => exact ih (Tiles.fuse ht hsign) hs
  | @signed _ _ _ sign _ _ hsign _ _ ih =>
    cases ht with
    | cons hpiece hrest =>
      obtain rfl := hpiece.eq_of_sign? hsign
      have hoperand := ih hrest.signed (Text.Holds.right (a := [_]) hs)
      rw [slashes_signed]
      exact (Text.HasSlashes.of_sign sign).append hoperand
  | join hl hr ihl ihr =>
    obtain ⟨a, b, rfl, ha, hb⟩ := Tiles.split ht
    cases hb with
    | cons hpiece hrest =>
      obtain rfl := hpiece
      have hafter := Text.Holds.right (a := [_]) hs.right
      rw [Text.byteLength_cons, BinaryOp.utf8Size_toChar] at hrest hafter
      exact (ihl ha hs.left).join (ihr hrest hafter) (hl.places ha hs.left).ends

end Grammar

/-! ### Exponents -/

/-- The expression is a group, or the negative of one. -/
inductive Expr.IsGroup : (e : Expr) → (negated : Bool) → (inner : Expr) → (place : Span) → Prop
  | group {inner place} : IsGroup (.group inner place) false inner place
  | negate {inner place span} : IsGroup (.negate (.group inner place) span) true inner place

theorem Expr.IsGroup.mem_nodes {negated : Bool} {inner exponent : Expr} {place : Span}
    (h : exponent.IsGroup negated inner place) : .group inner place ∈ exponent.nodes := by
  cases h with
  | group => exact self_mem_nodes _
  | negate => exact List.mem_cons_of_mem _ (self_mem_nodes _)

theorem Expr.IsGroup.ofExponent?_eq {negated : Bool} {inner exponent : Expr} {place : Span}
    (h : exponent.IsGroup negated inner place) (source : Text) :
    Fraction.ofExponent? source exponent = Fraction.ofGroup? negated place source := by
  cases h <;> rfl

/-- Nothing else is read as a fraction. -/
theorem Fraction.exists_isGroup {source : Text} {exponent : Expr} {fraction : Fraction}
    (h : ofExponent? source exponent = some fraction) :
    ∃ negated inner place, exponent.IsGroup negated inner place := by
  unfold ofExponent? at h
  split at h
  · exact ⟨_, _, _, .group⟩
  · exact ⟨_, _, _, .negate⟩
  · cases h

/-- A division in the expression that is in no further group. -/
def Expr.Divides (e : Expr) : Prop :=
  ∃ left right span, .binary .div left right span ∈ e.outer

theorem Expr.divides_iff {e : Expr} : e.Divides ↔ e.slashes ≠ [] := by
  constructor
  · rintro ⟨left, right, span, hdiv⟩
    exact List.ne_nil_of_mem (mem_slashes_iff.2 ⟨left, right, span, hdiv, rfl⟩)
  · intro hne
    obtain ⟨n, hn⟩ := List.exists_mem_of_ne_nil _ hne
    obtain ⟨left, right, span, hdiv, _⟩ := mem_slashes_iff.1 hn
    exact ⟨left, right, span, hdiv⟩

/-- The fraction is what the group at `place` holds, cut at the first division in no further
group. -/
structure Fraction.Cuts (fraction : Fraction) (source : Text) (inner : Expr) (place : Span) :
    Prop where
  text : place.Marks source
    ('(' :: (fraction.numerator ++ '/' :: fraction.denominator ++ [')']))
  division : ∃ left right span, .binary .div left right span ∈ inner.outer ∧
    left.span.stop = place.start + 1 + fraction.numerator.byteLength
  first : ∀ left right span, .binary .div left right span ∈ inner.outer →
    place.start + 1 + fraction.numerator.byteLength ≤ left.span.stop
  numerator : fraction.numerator.Closes 0
  denominator : fraction.denominator.Closes 0

section

variable {limits : Limits} {source : Text} {e inner : Expr} {place : Span}

/-- What a group holds, with its slashes. -/
theorem exists_hasSlashes_of_group (h : parseText limits source = .ok e)
    (hmem : .group inner place ∈ e.nodes) :
    ∃ inside : Text, place.Marks source ('(' :: (inside ++ [')'])) ∧
      inside.HasSlashes (place.start + 1) inner.slashes := by
  obtain ⟨tokens, hscan, hparse⟩ := bind_eq_ok.1 h
  have htiles := (scanFrom_eq_ok_iff.1 hscan).1
  have hencloses := (Grammar.phrase_of_parse hparse).encloses hmem
  cases hencloses with
  | intro _ hinside =>
    obtain ⟨front, text, back, rfl, hspan, htext⟩ := htiles.exists_inside
    have hopening : '('.utf8Size = 1 := rfl
    have hclosing : ')'.utf8Size = 1 := rfl
    rw [hspan]
    have hheld : Text.Holds (front ++ '(' :: (text ++ ')' :: back)) (front.byteLength + 1) text :=
      ⟨front ++ ['('], ')' :: back, by simp, by simp [hopening]⟩
    refine ⟨text, ⟨⟨front, back, by simp, rfl⟩, ?_⟩, hinside.hasSlashes htext hheld⟩
    simp [hopening, hclosing]
    omega

theorem ofGroup?_cuts (h : parseText limits source = .ok e) (hmem : .group inner place ∈ e.nodes)
    (negated : Bool) :
    ((Fraction.ofGroup? negated place source).isSome ↔ inner.Divides) ∧
      ∀ fraction, Fraction.ofGroup? negated place source = some fraction →
        fraction.negated = negated ∧ fraction.Cuts source inner place := by
  obtain ⟨inside, hmarks, hslashes⟩ := exists_hasSlashes_of_group h hmem
  have hgroup : Fraction.ofGroup? negated place source =
      (splitSlash? 0 inside).map fun sides => ⟨sides.1, sides.2, negated⟩ := by
    rw [Fraction.ofGroup?, hmarks.text_eq, Fraction.inside?_enclosed]
    exact Option.map_eq_bind.symm
  have hhead := @Text.head?_slashes 0 (place.start + 1) inside
  rw [← hslashes.slashes_eq] at hhead
  rw [hgroup, Option.isSome_map]
  constructor
  · rw [Expr.divides_iff, ← List.isSome_head?, hhead, Option.isSome_map]
  · intro fraction hfraction
    obtain ⟨⟨numerator, denominator⟩, hsplit, rfl⟩ := Option.map_eq_some_iff.1 hfraction
    rw [hsplit] at hhead
    obtain ⟨hnumerator, hdenominator⟩ := hslashes.closes.sides hsplit
    have hmem := List.mem_of_head? hhead
    rw [← Fraction.splitSlash?_append hsplit] at hmarks
    refine ⟨rfl, hmarks, Expr.mem_slashes_iff.1 hmem, ?_, hnumerator, hdenominator⟩
    intro left right span hdiv
    have hslash := Expr.mem_slashes_iff.2 ⟨left, right, span, hdiv, rfl⟩
    rw [hslashes.slashes_eq] at hhead hslash
    exact Text.le_of_head?_slashes hhead _ hslash

end

/-- The exponent of a power is read as a fraction if it is a group, or the negative of one, with a
division that is in no further group, and only then. The group is cut at the first such division,
and both sides close what they open. -/
theorem ofExponent?_pow {limits : Limits} {source : Text} {e base exponent : Expr} {span : Span}
    (h : parseText limits source = .ok e) (hmem : .binary .pow base exponent span ∈ e.nodes) :
    ((Fraction.ofExponent? source exponent).isSome ↔
      ∃ negated inner place, exponent.IsGroup negated inner place ∧ inner.Divides) ∧
    ∀ fraction, Fraction.ofExponent? source exponent = some fraction →
      ∃ inner place, exponent.IsGroup fraction.negated inner place ∧
        fraction.Cuts source inner place := by
  have hcuts {negated : Bool} {inner : Expr} {place : Span}
      (hgroup : exponent.IsGroup negated inner place) :=
    ofGroup?_cuts h (Expr.mem_nodes_trans (Expr.mem_nodes_of_binary hmem).2 hgroup.mem_nodes)
      negated
  refine ⟨⟨fun hsome => ?_, ?_⟩, fun fraction hfraction => ?_⟩
  · obtain ⟨fraction, hfraction⟩ := Option.isSome_iff_exists.1 hsome
    obtain ⟨negated, inner, place, hgroup⟩ := Fraction.exists_isGroup hfraction
    rw [hgroup.ofExponent?_eq] at hsome
    exact ⟨negated, inner, place, hgroup, (hcuts hgroup).1.1 hsome⟩
  · rintro ⟨negated, inner, place, hgroup, hdivides⟩
    rw [hgroup.ofExponent?_eq]
    exact (hcuts hgroup).1.2 hdivides
  · obtain ⟨negated, inner, place, hgroup⟩ := Fraction.exists_isGroup hfraction
    rw [hgroup.ofExponent?_eq] at hfraction
    obtain ⟨rfl, hparts⟩ := (hcuts hgroup).2 fraction hfraction
    exact ⟨inner, place, hgroup, hparts⟩

/-- A quotient and a sum of groups: the slash of the first group is no part of the cut. -/
theorem ofExponent?_pow_groups : ∃ exponent inner place,
    parseText {} "9^-((4/2)+1/(2))".toList = .ok (.join .pow (.literal 9 ⟨0, 1⟩) exponent) ∧
      exponent.IsGroup true inner place ∧
      Fraction.Cuts ⟨"(4/2)+1".toList, "(2)".toList, true⟩ "9^-((4/2)+1/(2))".toList inner
        place := by
  have hparse : parseText {} "9^-((4/2)+1/(2))".toList =
      .ok (.join .pow (.literal 9 ⟨0, 1⟩) (.negate (.group
        (.join .add (.group (.join .div (.literal 4 ⟨5, 6⟩) (.literal 2 ⟨7, 8⟩)) ⟨4, 9⟩)
          (.join .div (.literal 1 ⟨10, 11⟩) (.group (.literal 2 ⟨13, 14⟩) ⟨12, 15⟩))) ⟨3, 16⟩)
        ⟨2, 16⟩)) := by
    decide +kernel
  obtain ⟨inner, place, hgroup, hcuts⟩ := (ofExponent?_pow hparse (Expr.self_mem_nodes _)).2
    ⟨"(4/2)+1".toList, "(2)".toList, true⟩ (by decide +kernel)
  exact ⟨_, inner, place, hparse, hgroup, hcuts⟩

end Calculator
