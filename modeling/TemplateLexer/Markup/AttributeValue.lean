import TemplateLexer.Character
import TemplateLexer.LexError
import TemplateLexer.Token

/-! # Values of attributes

A value is quoted, bare, or a piece of markup between curly brackets. This module
knows the extents of the first two. A bare value is a number or one of the words
`true` and `false` in any letter case, and only a blank, the end of the tag or
the end of the input may follow it.
-/

namespace TemplateLexer.Markup

namespace QuotedValue

/-- The length of the contents after the opening quote. They end before the first
double quote that has no backslash directly before it among the contents. -/
def contentsLength? : List Char → Option Nat
  | [] => none
  | '"' :: _ => some 0
  | '\\' :: '"' :: rest => (contentsLength? rest).map (· + 2)
  | _ :: rest => (contentsLength? rest).map (· + 1)

end QuotedValue

/-- The kinds of bare values. -/
inductive BareValue where
  | number
  | boolean (value : Bool)
deriving DecidableEq

namespace BareValue

/-- The first character of a bare value tells its kind. -/
def ofFirst? (c : Char) : Option BareValue :=
  if c.toLower == 't' then some (.boolean true)
  else if c.toLower == 'f' then some (.boolean false)
  else if c.isDigit || c == '.' || c == '-' then some .number
  else none

/-- The word for a truth value. -/
def word : Bool → List Char
  | true => ['t', 'r', 'u', 'e']
  | false => ['f', 'a', 'l', 's', 'e']

/-- How many characters at the beginning of a text spell the beginning of a word,
whatever their letter case. -/
def spelled : List Char → List Char → Nat
  | expected :: word, c :: rest => if c.toLower == expected then spelled word rest + 1 else 0
  | _, _ => 0

/-- The length of digits with at most one decimal point among them. -/
def unsignedLength (text : List Char) : Nat :=
  match text.drop (leadingDigits text) with
  | '.' :: rest => leadingDigits text + 1 + leadingDigits rest
  | _ => leadingDigits text

/-- The kind of the token of a bare value. -/
def kind : BareValue → Token.Kind
  | .number => .number
  | .boolean _ => .literal

/-- The cause for which something that begins like a bare value is refused. -/
def malformed : BareValue → LexError.Cause
  | .number => .malformedNumber
  | .boolean true => .malformedLiteralTrue
  | .boolean false => .malformedLiteralFalse

/-- How much of a text can be the beginning of a bare value. -/
def extent (value : BareValue) (text : List Char) : Nat :=
  match value, text with
  | .number, '-' :: rest => unsignedLength rest + 1
  | .number, _ => unsignedLength text
  | .boolean truth, _ => spelled (word truth) text

/-- Whether the beginning of a value is all of one: a number has a digit, and a
word is spelled to its end. -/
def isComplete (value : BareValue) (source : List Char) : Bool :=
  match value with
  | .number => source.any Char.isDigit
  | .boolean truth => source.length == (word truth).length

/-- Whether a bare value may end before this text. -/
def atBoundary : List Char → Bool
  | [] => true
  | c :: _ => isBlank c || c == '>'

/-- Nothing is no value. -/
theorem ne_nil_of_isComplete {value : BareValue} {source : List Char}
    (h : value.isComplete source) : source ≠ [] := by
  rintro rfl
  revert h
  cases value with
  | number => decide
  | boolean truth => cases truth <;> decide

end BareValue

end TemplateLexer.Markup
