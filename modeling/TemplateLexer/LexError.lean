import TemplateLexer.Quote.Nesting
import TemplateLexer.Span.Pending

/-! # Lexical errors

What can be wrong with a template, where it was noticed, and how it is reported:
a stable code for programs and a sentence for people.
-/

namespace TemplateLexer

namespace LexError

/-- The reasons for which a template is refused. -/
inductive Cause where
  /-- No name follows the `<` of an opening tag. -/
  | missingTagName
  /-- A tag is not ended by `>`. -/
  | unterminatedTag
  /-- Markup that is an attribute's value is not closed. -/
  | unterminatedSubtree
  /-- An interpolation is not closed. -/
  | unterminatedInterpolation
  /-- A quoted value lacks its closing quote. -/
  | unterminatedString
  /-- Something else stands where the name of an attribute is expected. -/
  | expectedAttributeKey
  /-- A bare value that begins like a number is none. -/
  | malformedNumber
  /-- A bare value that begins with `t` is not `true`. -/
  | malformedLiteralTrue
  /-- A bare value that begins with `f` is not `false`. -/
  | malformedLiteralFalse
  /-- A value begins like no kind of value. -/
  | unsupportedAttributeValue
  /-- A closing curly bracket in text has nothing to close. -/
  | unescapedClosingCurly
  /-- An interpolation nests strings too deeply. -/
  | quoteDepthExceeded
  /-- The ends of a span were not recorded properly. No template causes this. -/
  | invalidSpan (misuse : Span.Pending.Misuse)
deriving DecidableEq

namespace Cause

/-- The stable name of a cause. -/
def code : Cause → String
  | .missingTagName => "MISSING_TAG_NAME"
  | .unterminatedTag => "UNTERMINATED_TAG"
  | .unterminatedSubtree => "UNTERMINATED_SUBTREE"
  | .unterminatedInterpolation => "UNTERMINATED_INTERPOLATION"
  | .unterminatedString => "UNTERMINATED_STRING"
  | .expectedAttributeKey => "EXPECTED_ATTRIBUTE_KEY"
  | .malformedNumber => "MALFORMED_NUMBER"
  | .malformedLiteralTrue => "MALFORMED_LITERAL_TRUE"
  | .malformedLiteralFalse => "MALFORMED_LITERAL_FALSE"
  | .unsupportedAttributeValue => "UNSUPPORTED_ATTRIBUTE_VALUE"
  | .unescapedClosingCurly => "UNESCAPED_CLOSING_CURLY"
  | .quoteDepthExceeded => "QUOTE_DEPTH_EXCEEDED"
  | .invalidSpan _ => "INVALID_SPAN"

/-- The description of a cause. -/
def message : Cause → String
  | .missingTagName => "missing tag name"
  | .unterminatedTag => "unterminated tag, expected '>'"
  | .unterminatedSubtree => "unterminated subtree, expected '\x7d'"
  | .unterminatedInterpolation => "unterminated interpolation, expected '\x7d\x7d'"
  | .unterminatedString => "unterminated string"
  | .expectedAttributeKey => "expected an attribute key"
  | .malformedNumber => "malformed number"
  | .malformedLiteralTrue => "malformed literal, expected 'true'"
  | .malformedLiteralFalse => "malformed literal, expected 'false'"
  | .unsupportedAttributeValue => "unsupported attribute value"
  | .unescapedClosingCurly => "unescaped closing curly bracket, write '\\\x7d'"
  | .quoteDepthExceeded => Quote.Nesting.limitMessage
  | .invalidSpan misuse => "internal lexer error: " ++ misuse.message

end Cause

end LexError

/-- A cause and the position of the character at which it was noticed. -/
structure LexError where
  cause : LexError.Cause
  position : Nat
deriving DecidableEq

/-- The sentence that reports an error. -/
def LexError.message (error : LexError) : String :=
  s!"{error.cause.message} at position {error.position}"

end TemplateLexer
