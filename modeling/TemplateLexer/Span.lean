/-! # Spans

A span is a half-open range of character positions in a text. Positions count
characters, as an editor does for its caret, and not bytes.
-/

namespace TemplateLexer

/-- The positions from `start` up to, but not including, `stop`. -/
structure Span where
  start : Nat
  stop : Nat
deriving DecidableEq

namespace Span

/-- A span is empty when its ends meet. A span whose ends are reversed covers
nothing either, but it is not called empty. -/
def isEmpty (span : Span) : Bool := span.start == span.stop

/-- The characters of `text` that the span covers. Ends beyond the text count as
the end of the text, and reversed ends cut nothing. -/
def cut (span : Span) (text : List Char) : List Char :=
  (text.take span.stop).drop span.start

end Span

end TemplateLexer
