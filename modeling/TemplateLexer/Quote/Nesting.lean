import TemplateLexer.Quote

/-! # Nesting of quotes

In the body of an interpolation a string may hold a string that is delimited by
the other quote, and so on. A quote equal to the one that opened the innermost
string closes it, and a quote that differs from it opens a string one level
deeper. The levels are recorded in one machine word, so there is a limit to
their number.
-/

namespace TemplateLexer.Quote

/-- The strings that are open at some point of a text. Bit `n` of the record is
set when level `n` was opened by a single quote; bits from `depth` on mean
nothing. -/
structure Nesting where
  record : BitVec 64 := 0
  depth : Nat := 0
deriving DecidableEq

namespace Nesting

/-- The largest number of strings that may be open at once. -/
def limit : Nat := 64

/-- What is said of a text that opens more strings than the limit. -/
def limitMessage : String := s!"maximum quote-stack depth of {limit} exceeded"

/-- Whether some string is open. -/
def isOpen (nesting : Nesting) : Bool := nesting.depth != 0

/-- The quote that opened a level. -/
def quoteAt (nesting : Nesting) (level : Nat) : Quote :=
  if nesting.record.getLsbD level then .single else .double

/-- The quote that opened the innermost open string. -/
def innermost? (nesting : Nesting) : Option Quote :=
  if nesting.depth = 0 then none else some (nesting.quoteAt (nesting.depth - 1))

/-- The record after writing the quote that opens a level. -/
def recordAt (nesting : Nesting) (level : Nat) : Quote → BitVec 64
  | .single => nesting.record ||| BitVec.twoPow 64 level
  | .double => nesting.record &&& ~~~ BitVec.twoPow 64 level

/-- Reads one quote. There is no result if it would open a string beyond the
limit. -/
def readQuote (nesting : Nesting) (quote : Quote) : Option Nesting :=
  if nesting.innermost? = some quote then
    some { nesting with depth := nesting.depth - 1 }
  else if nesting.depth = limit then
    none
  else
    some { record := nesting.recordAt nesting.depth quote, depth := nesting.depth + 1 }

/-- Reads one character; only quotes matter. -/
def read (nesting : Nesting) (c : Char) : Option Nesting :=
  match Quote.ofChar? c with
  | none => some nesting
  | some quote => nesting.readQuote quote

/-- Reads a text up to the first character that cannot be read. The result is the
nesting before that character, and the index of it if there is one. -/
def readAll (nesting : Nesting) : List Char → Nesting × Option Nat
  | [] => (nesting, none)
  | c :: rest =>
    match nesting.read c with
    | none => (nesting, some 0)
    | some next =>
      let (last, failure) := next.readAll rest
      (last, failure.map (· + 1))

end Nesting

end TemplateLexer.Quote
