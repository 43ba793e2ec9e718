import Mathlib.Data.List.Basic
import TemplateLexer.Proofs.Source

/-! # Sentences of markup

The grammar of token sequences, which knows nothing of how an input is read. A
token counts by its kind and its text. Content holds tags, a tag holds attributes,
and the value of an attribute may be content again.
-/

namespace TemplateLexer

/-- The kind and the text of a token, wherever it stands. -/
abbrev Piece := Token.Kind × List Char

def Token.piece (token : Token) : Piece := (token.kind, token.text.toList)

namespace Sentence

/-- One character of a tag's punctuation. -/
def tagMark (c : Char) : Piece := (.tagPunctuation, [c])

/-- A curly bracket around content that is a value. -/
def brace (c : Char) : Piece := (.subtreeBrace, [c])

/-- The double brackets before or after an interpolation. -/
def interpolationMark (c : Char) : Piece := (.interpolation, [c, c])

/-- The punctuation in the name of a directive. -/
def directiveMark (c : Char) : Piece := (.directivePunctuation, [c])

/-- A keyword in the name of a directive. -/
def directiveWord (word : List Char) : Piece := (.directiveKeyword, word)

/-- The quotes around a value. -/
def quoteMark : Piece := (.string, ['"'])

/-- The sign before a value. -/
def equalsMark : Piece := (.equals, ['='])

/-- Any number of blanks. -/
def Blanks (pieces : List Piece) : Prop := ∀ piece ∈ pieces, piece.1.isBlank

/-- Any number of tokens of an expression. -/
def InExpression (pieces : List Piece) : Prop := ∀ piece ∈ pieces, piece.1 ∈ Expression.kinds

/-- A token of a kind, or none. -/
def Optional (kind : Token.Kind) (pieces : List Piece) : Prop :=
  pieces = [] ∨ ∃ text, pieces = [(kind, text)]

/-- The markers that begin with an asterisk, if there are any. -/
def structuralMarkers : List (List Piece) :=
  [[], [directiveMark '*'],
    [directiveMark '*', directiveWord ['f', 'o', 'r'], directiveMark '-']]

/-- The markers of a variable, if there are any. -/
def declarationMarkers : List (List Piece) :=
  [[], [directiveWord ['l', 'e', 't'], directiveMark '-']]

/-- The name of an attribute, and whether it is the name of a directive. -/
inductive Name : Bool → List Piece → Prop where
  | plain {text : List Char} : Name false [(.attributeName, text)]
  | binding {inner : List Piece} (hinner : Optional .bindingName inner) :
      Name true (directiveMark '[' :: (inner ++ [directiveMark ']']))
  | marked {structural declaration rest : List Piece} (hstructural : structural ∈ structuralMarkers)
      (hdeclaration : declaration ∈ declarationMarkers) (hmarked : structural ++ declaration ≠ [])
      (hrest : Optional .attributeName rest) : Name true (structural ++ declaration ++ rest)

/-- The phrases of the grammar. -/
inductive Symbol where
  /-- Content that does or does not follow a word of text. -/
  | content (afterText : Bool)
  | tag
  /-- The attributes of a tag, each with the blanks before it. -/
  | attributes
  /-- One attribute. -/
  | entry
  /-- The value of an attribute that is or is not a directive. -/
  | value (directive : Bool)

/-- The sequences of tokens that are a phrase of the grammar. -/
inductive Phrase : Symbol → List Piece → Prop where
  | empty {afterText : Bool} : Phrase (.content afterText) []
  | blank {afterText : Bool} {piece : Piece} {rest : List Piece} (hpiece : piece.1.isBlank)
      (hrest : Phrase (.content false) rest) : Phrase (.content afterText) (piece :: rest)
  /-- Two words of text never stand next to each other. -/
  | word {text : List Char} {rest : List Piece} (hrest : Phrase (.content true) rest) :
      Phrase (.content false) ((.text, text) :: rest)
  | comment {afterText : Bool} {text : List Char} {rest : List Piece}
      (hrest : Phrase (.content false) rest) :
      Phrase (.content afterText) ((.comment, text) :: rest)
  | interpolation {afterText : Bool} {body rest : List Piece} (hbody : InExpression body)
      (hrest : Phrase (.content false) rest) :
      Phrase (.content afterText)
        (interpolationMark '{' :: (body ++ interpolationMark '}' :: rest))
  | inTag {afterText : Bool} {tag rest : List Piece} (htag : Phrase .tag tag)
      (hrest : Phrase (.content false) rest) : Phrase (.content afterText) (tag ++ rest)
  | closingTag {blanks name : List Piece} (hblanks : Blanks blanks)
      (hname : Optional .tagName name) :
      Phrase .tag (tagMark '<' :: (blanks ++ tagMark '/' :: (name ++ [tagMark '>'])))
  | openingTag {blanks entries before slash after : List Piece} {name : List Char}
      (hblanks : Blanks blanks) (hentries : Phrase .attributes entries)
      (hbefore : Blanks before) (hslash : slash = [] ∨ slash = [tagMark '/'])
      (hafter : Blanks after) :
      Phrase .tag (tagMark '<' :: (blanks ++ (.tagName, name) ::
        (entries ++ before ++ slash ++ after ++ [tagMark '>'])))
  | noEntry : Phrase .attributes []
  | entries {blanks entry rest : List Piece} (hblanks : Blanks blanks)
      (hentry : Phrase .entry entry) (hrest : Phrase .attributes rest) :
      Phrase .attributes (blanks ++ entry ++ rest)
  | flag {directive : Bool} {name blanks : List Piece} (hname : Name directive name)
      (hblanks : Blanks blanks) : Phrase .entry (name ++ blanks)
  | valued {directive : Bool} {name before after value : List Piece}
      (hname : Name directive name) (hbefore : Blanks before) (hafter : Blanks after)
      (hvalue : Phrase (.value directive) value) :
      Phrase .entry (name ++ before ++ equalsMark :: (after ++ value))
  /-- The value of an attribute that is no directive is read as it stands. -/
  | quoted {contents : List Piece} (hcontents : Optional .string contents) :
      Phrase (.value false) (quoteMark :: (contents ++ [quoteMark]))
  | quotedExpression {contents : List Piece} (hcontents : InExpression contents) :
      Phrase (.value true) (quoteMark :: (contents ++ [quoteMark]))
  | subtree {directive : Bool} {body : List Piece} (hbody : Phrase (.content false) body) :
      Phrase (.value directive) (brace '{' :: (body ++ [brace '}']))
  | literal {directive : Bool} {text : List Char} : Phrase (.value directive) [(.literal, text)]
  | number {directive : Bool} {text : List Char} : Phrase (.value directive) [(.number, text)]

end Sentence

/-- A sentence is content that follows nothing. -/
def Sentence (pieces : List Piece) : Prop := Sentence.Phrase (.content false) pieces

end TemplateLexer
