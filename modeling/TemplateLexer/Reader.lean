import TemplateLexer.Character
import TemplateLexer.Span

/-! # Readers

A reader stands at a position of a text. It moves forward as it reads, and moves
back only to a position that it is told to rewind to. It reads nothing beyond the
end of the text. Positions and counts are machine words, and what is counted from a
position is added as words are.
-/

namespace TemplateLexer

/-- A text and the position of the next character to read. -/
structure Reader where
  text : List Char
  position : Nat := 0
deriving DecidableEq

namespace Reader

/-- The position that lies `count` characters behind another one. A sum that is too large for a
word starts again from zero. Every position of a text lies in the lower half of the words, since no
text is longer, and so only a count in the upper half can make the sum too large. -/
def countFrom (position count : Nat) : Nat :=
  if 2 * count < UInt64.size then position + count else (position + count) % UInt64.size

/-- A count that is small, or that the word of the sum has room for, is added. -/
theorem countFrom_eq_add {position count : Nat}
    (h : 2 * count < UInt64.size ∨ position + count < UInt64.size) :
    countFrom position count = position + count := by
  rw [countFrom]
  split
  next => rfl
  next hlarge => exact Nat.mod_eq_of_lt (h.resolve_left hlarge)

/-- From a position of a text, the sum is that of words. -/
theorem countFrom_eq_mod {position count : Nat} (h : 2 * position < UInt64.size) :
    countFrom position count = (position + count) % UInt64.size := by
  rw [countFrom]
  split
  -- Two numbers in the lower half of the words have a word as their sum.
  next hcount => exact (Nat.mod_eq_of_lt (by omega)).symm
  next => rfl

/-- Whether everything is read. -/
def atEnd (reader : Reader) : Bool := reader.text.length ≤ reader.position

/-- The characters that are not read yet. -/
def unread (reader : Reader) : List Char := reader.text.drop reader.position

/-- The next character. -/
def peek? (reader : Reader) : Option Char := reader.text[reader.position]?

/-- The character that lies `offset` characters ahead. -/
def peekAt? (reader : Reader) (offset : Nat) : Option Char :=
  reader.text[countFrom reader.position offset]?

/-- Reads the next character. -/
def next? (reader : Reader) : Option Char × Reader :=
  match reader.peek? with
  | none => (none, reader)
  | some c => (some c, { reader with position := reader.position + 1 })

/-- Whether the given characters come next. -/
def startsWith (reader : Reader) (literal : List Char) : Bool :=
  literal.isPrefixOf reader.unread

/-- Moves over the given number of characters, but not beyond the end. -/
def skip (reader : Reader) (count : Nat) : Reader :=
  { reader with position := min (countFrom reader.position count) reader.text.length }

/-- Moves to the first character that does not satisfy the predicate. -/
def skipWhile (reader : Reader) (p : Char → Bool) : Reader :=
  { reader with position := reader.position + (reader.unread.takeWhile p).length }

/-- Reads the blanks that come next. -/
def takeBlanks (reader : Reader) : List Char × Reader :=
  (reader.unread.takeWhile isBlank, reader.skipWhile isBlank)

/-- The characters under a span, wherever the reader stands. -/
def slice (reader : Reader) (span : Span) : List Char := span.cut reader.text

/-- Moves to a position where the reader stood before. -/
def rewind (reader : Reader) (position : Nat) : Reader := { reader with position }

end Reader

end TemplateLexer
