import TemplateLexer.Expression
import TemplateLexer.Markup.AttributeName
import TemplateLexer.Markup.Text

/-! # Fragments

A fragment is what the markup lexer recognizes at once: a piece of the input and
the role it has. One fragment can be many lexemes, for the body of an
interpolation is read as an expression and the name of an attribute is split into
its markers. Whatever its role, a fragment is read from its own characters only.
-/

namespace TemplateLexer.Markup

/-- A piece of a template and its role. -/
inductive Fragment where
  /-- A piece that is one token. -/
  | token (kind : Token.Kind) (source : List Char)
  /-- Blanks, each a token. -/
  | blanks (run : List Char)
  /-- Text as written, with its blanks and escapes. -/
  | text (raw : List Char)
  /-- An expression. -/
  | expression (source : List Char)
  /-- An expression between double curly brackets. -/
  | interpolation (body : List Char)
  /-- The name of an attribute. -/
  | attributeName (name : List Char)
  /-- The quoted value of the attribute with the given name. -/
  | quotedValue (contents name : List Char)
deriving DecidableEq

namespace Fragment

/-- One character of a tag's punctuation. -/
def tagPunctuation (c : Char) : Fragment := .token .tagPunctuation [c]

/-- A curly bracket around markup that is a value. -/
def subtreeBrace (c : Char) : Fragment := .token .subtreeBrace [c]

/-- The sign between the name and the value of an attribute. -/
def equals : Fragment := .token .equals ['=']

/-- The brackets before an interpolation. -/
def interpolationOpening : List Char := ['{', '{']

/-- The brackets after an interpolation. -/
def interpolationClosing : List Char := ['}', '}']

/-- The contents of a quoted value are an expression under the name of a
directive, and opaque under any other. -/
def contentsLexemes (contents name : List Char) : List Lexeme :=
  if AttributeName.isDirective name then Expression.lexemes contents
  else [{ kind := .string, source := contents }]

/-- The lexemes of a fragment. -/
def lexemes : Fragment → List Lexeme
  | .token kind source => [{ kind, source }]
  | .blanks run => run.map .blank
  | .text raw => Text.lexemes raw
  | .expression source => Expression.lexemes source
  | .interpolation body =>
    { kind := .interpolation, source := interpolationOpening } ::
      Expression.lexemes body ++
      [{ kind := .interpolation, source := interpolationClosing }]
  | .attributeName name => AttributeName.lexemes name
  | .quotedValue contents name =>
    { kind := .string, source := ['"'] } :: contentsLexemes contents name ++
      [{ kind := .string, source := ['"'] }]

/-- The characters that a fragment stands for. -/
def source : Fragment → List Char
  | .token _ source => source
  | .blanks run => run
  | .text raw => raw
  | .expression source => source
  | .interpolation body => interpolationOpening ++ body ++ interpolationClosing
  | .attributeName name => name
  | .quotedValue contents _ => '"' :: contents ++ ['"']

end Fragment

end TemplateLexer.Markup
