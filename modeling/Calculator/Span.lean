import Calculator.Text.Basic

/-! Spans: where a token or an expression stands in the text it was read from. -/

namespace Calculator

/-- The bytes from `start` on and before `stop`. -/
structure Span where
  start : Nat
  stop : Nat
  deriving DecidableEq, Repr

namespace Span

/-- The smallest span over both. -/
def cover (a b : Span) : Span := ⟨min a.start b.start, max a.stop b.stop⟩

/-- What `source` holds at the span; nothing where the span does not fit. -/
def text (span : Span) (source : Text) : Text := (source.slice? span.start span.stop).getD []

/-- What `source` holds from the start of the span on. -/
def textFrom (span : Span) (source : Text) : Text := (source.dropBytes span.start).getD []

theorem text_append (a b c : Text) :
    (⟨a.byteLength, a.byteLength + b.byteLength⟩ : Span).text (a ++ b ++ c) = b := by
  simp only [text, Text.slice?_append, Option.getD_some]

end Span

end Calculator
