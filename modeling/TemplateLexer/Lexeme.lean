import TemplateLexer.Character
import TemplateLexer.Token

/-! # Lexemes

A lexeme is a token that has not been placed yet: it knows the characters it was
read from but not their position. Lexers produce lexemes in the order of the
input, and placing them one after the other gives every token its span, so spans
are contiguous by construction.
-/

namespace TemplateLexer

/-- A classified piece of the input together with the characters it was read
from. The two differ only where escapes were resolved. -/
structure Lexeme where
  kind : Token.Kind
  source : List Char
  text : List Char := source
deriving DecidableEq

namespace Lexeme

/-- The lexeme of one blank; a tab has a kind of its own. -/
def blank (c : Char) : Lexeme :=
  { kind := if c == '\t' then .tab else .whitespace, source := [c] }

/-- The token of a lexeme that was read at `offset`. -/
def place (offset : Nat) (lexeme : Lexeme) : Token :=
  { kind := lexeme.kind
    text := String.ofList lexeme.text
    span := ⟨offset, offset + lexeme.source.length⟩ }

/-- Places lexemes one after the other from `offset` on. A lexeme that was read
from no characters stands for nothing and yields no token. -/
def placeAll (offset : Nat) : List Lexeme → List Token
  | [] => []
  | lexeme :: rest =>
    if lexeme.source.isEmpty then placeAll offset rest
    else lexeme.place offset :: placeAll (offset + lexeme.source.length) rest

/-- The characters that a list of lexemes was read from. -/
def sourceOf (lexemes : List Lexeme) : List Char := lexemes.flatMap source

theorem sourceOf_cons (lexeme : Lexeme) (rest : List Lexeme) :
    sourceOf (lexeme :: rest) = lexeme.source ++ sourceOf rest := by
  simp [sourceOf]

theorem sourceOf_append (first second : List Lexeme) :
    sourceOf (first ++ second) = sourceOf first ++ sourceOf second := by
  simp [sourceOf]

/-- Placing two lists in a row places the second where the first one ends. -/
theorem placeAll_append (offset : Nat) (first second : List Lexeme) :
    placeAll offset (first ++ second) =
      placeAll offset first ++ placeAll (offset + (sourceOf first).length) second := by
  induction first generalizing offset with
  | nil => simp [placeAll, sourceOf]
  | cons lexeme rest ih =>
      simp only [List.cons_append, placeAll, ih, sourceOf_cons, List.length_append]
      split
      next hempty => simp_all
      next => simp [Nat.add_assoc]

end Lexeme

end TemplateLexer
