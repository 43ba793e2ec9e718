import TemplateLexer.Quote.Nesting

/-! # The extent of an interpolation

The body of an interpolation ends at the first pair of closing curly brackets
outside of its strings. Strings are told by the nesting of quotes alone, so a
body that nests them too deeply has no extent.
-/

namespace TemplateLexer.Markup.Interpolation

/-- What becomes of the text after the opening brackets. -/
inductive Extent where
  /-- The body has this length, and its closing brackets follow. -/
  | closed (length : Nat)
  /-- The quote at this index opens more strings than may be open at once. -/
  | tooDeep (index : Nat)
  /-- The text ends before the body does. -/
  | unclosed
deriving DecidableEq

/-- The extent of a text with one more character before it. -/
def Extent.succ : Extent → Extent
  | .closed length => .closed (length + 1)
  | .tooDeep index => .tooDeep (index + 1)
  | .unclosed => .unclosed

/-- The extent of a body that goes on with the given text, after characters that
left strings open as `nesting` says. A quote is judged before the brackets. -/
def extentFrom (nesting : Quote.Nesting) : List Char → Extent
  | [] => .unclosed
  | c :: rest =>
    match nesting.read c with
    | none => .tooDeep 0
    | some next =>
      if !next.isOpen && c == '}' && rest.head? == some '}' then .closed 0
      else (extentFrom next rest).succ

/-- The extent of the body that begins a text. -/
def extent (text : List Char) : Extent := extentFrom {} text

end TemplateLexer.Markup.Interpolation
