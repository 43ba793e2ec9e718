import TemplateLexer.LexError
import TemplateLexer.Markup.Fragment

/-! # Steps of the markup lexer

Markup alternates between content and tags: a tag ends in content, and an
attribute whose value is markup leads from its tag into content that ends back in
that tag. So the number of open subtrees is all that the lexer has to remember of
its past, besides the name of the attribute whose value comes next.

A step reads one construct from the characters that are still unread. It looks
only at those, and what it reports of an error is what was unread where the error
was noticed.
-/

namespace TemplateLexer.Markup

/-- Where the lexer stands, with the number of subtrees that are open there. -/
inductive State where
  /-- Between tags. -/
  | content (depth : Nat)
  /-- In a tag, before an attribute or the end of the tag. -/
  | tag (depth : Nat)
  /-- In a tag, behind its closing slash. -/
  | tagEnd (depth : Nat)
  /-- In a tag, before the value of the attribute with the given name. -/
  | value (name : List Char) (depth : Nat)
deriving DecidableEq

/-- A cause, and what was unread where it was noticed. -/
structure Failure where
  cause : LexError.Cause
  unread : List Char
deriving DecidableEq

/-- What comes of a step. -/
inductive Step where
  /-- The input ends where it may end. -/
  | finished
  /-- The input is refused after these fragments. -/
  | failed (emitted : List Fragment) (failure : Failure)
  /-- The fragments were read, and the lexer goes on with the rest. -/
  | advanced (emitted : List Fragment) (next : State) (rest : List Char)
deriving DecidableEq

namespace Step

/-- Refuses the input with nothing read. -/
def refused (cause : LexError.Cause) (unread : List Char) : Step := .failed [] ⟨cause, unread⟩

/-- A step leaves fewer than `length` characters to read if it goes on. -/
def LeavesLess (length : Nat) (step : Step) : Prop :=
  ∀ emitted next rest, step = .advanced emitted next rest → rest.length < length

theorem leavesLess_advanced {length : Nat} {emitted : List Fragment} {next : State}
    {rest : List Char} (h : rest.length < length) :
    LeavesLess length (.advanced emitted next rest) := by
  rintro _ _ _ ⟨⟩
  exact h

theorem leavesLess_refused (length : Nat) (cause : LexError.Cause) (unread : List Char) :
    LeavesLess length (.refused cause unread) := by
  rintro _ _ _ ⟨⟩

end Step

end TemplateLexer.Markup
