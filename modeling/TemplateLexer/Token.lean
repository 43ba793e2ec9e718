import TemplateLexer.Span

/-! # Tokens

A token is a classified piece of a template or of an expression: its kind, its
text, and the span of the input it stands for.
-/

namespace TemplateLexer

namespace Token

/-- What a token is. Markup and expressions share one set of kinds. -/
inductive Kind where
  /-- One blank other than the tab. -/
  | whitespace
  /-- One tab. -/
  | tab
  /-- A word of markup text. -/
  | text
  /-- A comment with its delimiters. -/
  | comment
  /-- The name of an opening or a closing tag. -/
  | tagName
  /-- `<`, `>` or `/` of a tag. -/
  | tagPunctuation
  /-- The double curly brackets around an interpolation. -/
  | interpolation
  /-- The curly brackets around markup that is an attribute's value. -/
  | subtreeBrace
  /-- `=` between the name and the value of an attribute. -/
  | equals
  /-- The name of a plain attribute, or what a directive's markers leave of it. -/
  | attributeName
  /-- `*`, `[`, `]` and `-` in the name of a directive. -/
  | directivePunctuation
  /-- `for` and `let` in the name of a directive. -/
  | directiveKeyword
  /-- The name inside the brackets of a binding. -/
  | bindingName
  /-- The quotes of a string, its opaque contents, or a whole expression string. -/
  | string
  /-- A number. -/
  | number
  /-- `true`, `false` or `null`. -/
  | literal
  /-- A name in an expression. -/
  | identifier
  /-- An operator of an expression. -/
  | operator
  /-- Brackets, parentheses, points and commas of an expression. -/
  | punctuation
  /-- A character that means nothing in an expression. -/
  | plain
deriving DecidableEq

namespace Kind

/-- All kinds, each once. -/
def all : List Kind :=
  [.whitespace, .tab, .text, .comment, .tagName, .tagPunctuation, .interpolation,
    .subtreeBrace, .equals, .attributeName, .directivePunctuation, .directiveKeyword,
    .bindingName, .string, .number, .literal, .identifier, .operator, .punctuation, .plain]

/-- The name under which a kind is reported. -/
def name : Kind → String
  | .whitespace => "Whitespace"
  | .tab => "Tab"
  | .text => "Text"
  | .comment => "Comment"
  | .tagName => "TagName"
  | .tagPunctuation => "TagPunctuation"
  | .interpolation => "Interpolation"
  | .subtreeBrace => "SubtreeBrace"
  | .equals => "Equals"
  | .attributeName => "AttributeName"
  | .directivePunctuation => "DirectivePunctuation"
  | .directiveKeyword => "DirectiveKeyword"
  | .bindingName => "BindingName"
  | .string => "String"
  | .number => "Number"
  | .literal => "Literal"
  | .identifier => "Identifier"
  | .operator => "Operator"
  | .punctuation => "Punctuation"
  | .plain => "Plain"

/-- The kind that is reported under a name. -/
def ofName? (name : String) : Option Kind :=
  all.find? fun kind => kind.name == name

theorem mem_all (kind : Kind) : kind ∈ all := by
  cases kind <;> decide

/-- A kind can be recovered from its name. -/
theorem ofName?_name (kind : Kind) : ofName? kind.name = some kind := by
  cases kind <;> decide

/-- The two kinds that stand for one blank each. -/
def isBlank : Kind → Bool
  | .whitespace | .tab => true
  | _ => false

end Kind

end Token

/-- A classified piece of the input. The text is the input under the span, except
that a word of markup text has lost the backslashes of its escapes. -/
structure Token where
  kind : Token.Kind
  text : String
  span : Span
deriving DecidableEq

end TemplateLexer
