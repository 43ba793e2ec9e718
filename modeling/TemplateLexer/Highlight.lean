import TemplateLexer.Lex

/-! # Highlighting

How tokens look in an editor. The lexers decide what a piece of input is; only
this module knows which style it gets.
-/

namespace TemplateLexer

/-- The styles that an editor can give to a range of text. -/
inductive Style where
  | whitespace
  | tab
  | comment
  | content
  | tagName
  | tagPunctuation
  | keyword
  | variableName
  | string
  | number
  | operator
deriving DecidableEq

namespace Style

/-- The class of style sheets that a style belongs to. -/
def cssClass : Style → String
  | .whitespace => "tk-whitespace"
  | .tab => "tk-tab"
  | .comment => "tk-comment"
  | .content => "tk-content"
  | .tagName => "tk-class-name"
  | .tagPunctuation => "tk-class-name-alt"
  | .keyword => "tk-keyword"
  | .variableName => "tk-variable"
  | .string => "tk-string"
  | .number => "tk-number"
  | .operator => "tk-operator"

/-- The style of a token with this kind and text, if it has one. Line ends are
left unstyled, for a mark at every line end would be in the way. -/
def ofToken (kind : Token.Kind) (text : String) : Option Style :=
  match kind with
  | .whitespace => if text == "\n" || text == "\r" then none else some .whitespace
  | .tab => some .tab
  | .comment => some .comment
  | .text => some .content
  | .tagName => some .tagName
  | .tagPunctuation => some .tagPunctuation
  | .literal | .attributeName | .directiveKeyword => some .keyword
  | .bindingName | .identifier => some .variableName
  | .string => some .string
  | .number => some .number
  | .interpolation | .subtreeBrace | .equals | .directivePunctuation | .operator
  | .punctuation => some .operator
  | .plain => none

end Style

/-- A range of the input and its style. -/
structure StyledRange where
  span : Span
  style : Option Style
deriving DecidableEq

/-- The styled ranges of an input, and the error in it if there is one. -/
structure Highlight where
  ranges : List StyledRange
  error : Option LexError
deriving DecidableEq

namespace Highlight

/-- The range of a token. -/
def rangeOf (token : Token) : StyledRange :=
  { span := token.span, style := Style.ofToken token.kind token.text }

/-- What lies between the last token and the end of the input is one range without
a style. -/
def remainder (consumed length : Nat) : List StyledRange :=
  if consumed < length then [{ span := ⟨consumed, length⟩, style := none }] else []

end Highlight

/-- Styles an input: every token, and whatever an error leaves unread. -/
def highlight (options : Options) (input : String) : Highlight :=
  let lexed := lex options input
  { ranges := lexed.tokens.map Highlight.rangeOf ++
      Highlight.remainder lexed.consumed input.length
    error := lexed.error }

end TemplateLexer
