import TemplateLexer.Lexeme

/-! # Names of attributes

Some names mark their attribute as a directive, whose value is an expression: a
binding `[name]`, a structural directive `*name` or `*for-name`, and a variable
`let-name`. Reading a name splits these markers off.
-/

namespace TemplateLexer.Markup.AttributeName

/-- A binding is enclosed in brackets as a whole. -/
def isBinding (name : List Char) : Bool :=
  name.head? == some '[' && name.getLast? == some ']'

/-- The marker of a variable. -/
def letMarker : List Char := ['l', 'e', 't', '-']

/-- The marker of a repetition, which counts only after an asterisk. -/
def forMarker : List Char := ['f', 'o', 'r', '-']

/-- Whether an attribute with this name has an expression for its value. -/
def isDirective (name : List Char) : Bool :=
  name.head? == some '*' || isBinding name || letMarker.isPrefixOf name

/-- The lexeme of a marker's punctuation. -/
def punctuation (c : Char) : Lexeme := { kind := .directivePunctuation, source := [c] }

/-- Reads a marker made of a keyword and a hyphen, if the name begins with it. -/
def splitMarker (marker name : List Char) : List Lexeme × List Char :=
  if marker.isPrefixOf name then
    ([{ kind := .directiveKeyword, source := marker.dropLast }, punctuation '-'],
      name.drop marker.length)
  else
    ([], name)

/-- Reads the asterisk and what may follow only it. -/
def splitStructural : List Char → List Lexeme × List Char
  | '*' :: rest =>
    let (markers, name) := splitMarker forMarker rest
    (punctuation '*' :: markers, name)
  | name => ([], name)

/-- The lexemes of a name. What is left after the markers may be empty. -/
def lexemes (name : List Char) : List Lexeme :=
  if isBinding name then
    [punctuation '[', { kind := .bindingName, source := (name.drop 1).dropLast }, punctuation ']']
  else
    let (structural, afterStructural) := splitStructural name
    let (declaration, plain) := splitMarker letMarker afterStructural
    structural ++ declaration ++ [{ kind := .attributeName, source := plain }]

end TemplateLexer.Markup.AttributeName
