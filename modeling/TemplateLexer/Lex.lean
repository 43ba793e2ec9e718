import TemplateLexer.Markup.Run
import TemplateLexer.TokenStream

/-! # Lexing

Reads a whole input as markup or as an expression. Whatever is wrong with the
input, the tokens in front of the error are kept, so that the valid beginning of
a template that is being edited can be highlighted.
-/

namespace TemplateLexer

/-- The language that an input is written in. -/
inductive Grammar where
  /-- Tags, text, comments and interpolations. -/
  | markup
  /-- An expression without brackets around it. -/
  | expression
deriving DecidableEq

/-- How an input is read. -/
structure Options where
  /-- Takes closing curly brackets outside of all subtrees for text. -/
  lenient : Bool := false
  grammar : Grammar := .markup
deriving DecidableEq

/-- The tokens of an input, and the error that ended them early if there is one. -/
structure Lexed where
  tokens : List Token
  error : Option LexError := none
deriving DecidableEq

namespace Lexed

/-- Whether the whole input was read. -/
def isOk (lexed : Lexed) : Bool := lexed.error.isNone

/-- The position behind the last token. -/
def consumed (lexed : Lexed) : Nat :=
  match lexed.tokens.getLast? with
  | none => 0
  | some token => token.span.stop

/-- The tokens, unless there is an error. -/
def toExcept (lexed : Lexed) : Except LexError (List Token) :=
  match lexed.error with
  | none => .ok lexed.tokens
  | some error => .error error

end Lexed

/-- The error of a failure in an input. Its position is the number of characters
that had been read. -/
def Markup.Failure.toLexError (input : List Char) (failure : Failure) : LexError :=
  { cause := failure.cause, position := input.length - failure.unread.length }

/-- Reads an input as markup. -/
def lexMarkup (lenient : Bool) (input : List Char) : Lexed :=
  let (fragments, failure) := Markup.run lenient (.content 0) input
  { tokens := (TokenStream.ofFragments fragments).tokens
    error := failure.map (·.toLexError input) }

/-- Reads an input under the given options. An expression has no errors. -/
def lex (options : Options) (input : String) : Lexed :=
  match options.grammar with
  | .markup => lexMarkup options.lenient input.toList
  | .expression => { tokens := Expression.tokens input }

/-- The tokens of a template under the strict rules. -/
def lexStrict (input : String) : Except LexError (List Token) :=
  (lex {} input).toExcept

/-- The error of a bare value stands behind its longest valid beginning, and the
tokens in front of the value are kept. -/
example : lex {} "<a b=1.2.>" =
    { tokens :=
        [⟨.tagPunctuation, "<", ⟨0, 1⟩⟩, ⟨.tagName, "a", ⟨1, 2⟩⟩, ⟨.whitespace, " ", ⟨2, 3⟩⟩,
          ⟨.attributeName, "b", ⟨3, 4⟩⟩, ⟨.equals, "=", ⟨4, 5⟩⟩]
      error := some ⟨.malformedNumber, 8⟩ } := by
  decide +kernel

end TemplateLexer
