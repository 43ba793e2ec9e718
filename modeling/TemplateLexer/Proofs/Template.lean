import TemplateLexer.Proofs.Production
import TemplateLexer.Proofs.QuoteReduction

/-! # Templates

What markup is written from. A template is a tree of nodes, tags with attributes,
and values that hold templates again. Every part carries what makes it readable
where it stands, so that every template can be printed. The tokens of a template
are told from the tree and not from what is printed.
-/

namespace TemplateLexer.Template

open Markup

/-- Text between other nodes. What follows it must not change how it is read. -/
structure TextRun where
  text : List Char
  ne_nil : text ≠ []
  noOpening : ¬ ['{', '{'] <:+: text
  last : ∀ c ∈ text.getLast?, c ≠ '{' ∧ c ≠ '\\'

/-- The body of an interpolation, which ends at the first closing brackets that are in
no string. -/
structure ExpressionBody where
  text : List Char
  balanced : Quote.Reduces (Quote.quotesIn text) []
  bounded : ∀ before reduced, before <+: text → Quote.Reduces (Quote.quotesIn before) reduced →
    Quote.IsReduced reduced → reduced.length ≤ 64
  first : ∀ before after, text ++ ['}', '}'] = before ++ '}' :: '}' :: after →
    Quote.Reduces (Quote.quotesIn before) [] → text.length ≤ before.length

/-- What is commented, up to the first end of a comment. -/
structure CommentBody where
  text : List Char
  begins : ∃ c ∈ text.head?, isNameChar c = false
  first : ∀ before after, text ++ ['-', '-', '>'] = before ++ '-' :: '-' :: '>' :: after →
    text.length ≤ before.length

/-- The name of an opening tag. -/
structure TagName where
  name : List Char
  allName : AllName name
  ne_nil : name ≠ []
  notComment : name ≠ ['!', '-', '-']

/-- The name of an attribute. -/
structure Key where
  name : List Char
  allName : AllName name
  ne_nil : name ≠ []
  noDigit : ∀ c ∈ name.head?, c.isDigit = false

/-- The name of an attribute that has no value. -/
structure FlagKey extends Key where
  notReserved : ∀ truth, name.map Char.toLower ≠ BareValue.word truth

/-- The contents of a quoted value. Every quote in it is escaped. -/
structure Quoted where
  contents : List Char
  escaped : ∀ before after, contents = before ++ '"' :: after → before.getLast? = some '\\'
  last : contents.getLast? ≠ some '\\'

/-- A number, with digits before or behind its decimal point. -/
structure Numeral where
  negative : Bool
  whole : List Char
  fraction? : Option (List Char)
  wholeDigits : ∀ c ∈ whole, c.isDigit
  fractionDigits : ∀ fraction ∈ fraction?, ∀ c ∈ fraction, c.isDigit
  someDigit : whole ≠ [] ∨ ∃ fraction ∈ fraction?, fraction ≠ []

/-- A truth value in any letter case. -/
structure TruthValue where
  value : Bool
  text : List Char
  spelling : text.map Char.toLower = BareValue.word value

mutual

/-- Nodes in a row, which do or do not follow a text. A text never follows a text. -/
inductive Nodes : (afterText : Bool) → Type where
  | nil {afterText : Bool} : Nodes afterText
  | text (run : TextRun) (rest : Nodes true) : Nodes false
  | interpolation {afterText : Bool} (body : ExpressionBody) (rest : Nodes false) : Nodes afterText
  | comment {afterText : Bool} (body : CommentBody) (rest : Nodes false) : Nodes afterText
  | closingTag {afterText : Bool} (name : List Char) (hname : AllName name)
      (rest : Nodes false) : Nodes afterText
  | openingTag {afterText : Bool} (name : TagName) (attributes : Attributes) (isEmpty : Bool)
      (rest : Nodes false) : Nodes afterText

/-- The attributes of a tag. -/
inductive Attributes : Type where
  | nil
  | flag (key : FlagKey) (rest : Attributes)
  | valued (key : Key) (value : Value) (rest : Attributes)

/-- The value of an attribute. -/
inductive Value : Type where
  | quoted (quoted : Quoted)
  | number (numeral : Numeral)
  | literal (truth : TruthValue)
  | subtree (nodes : Nodes false)

end

/-- How a number is written without its sign. -/
def Numeral.unsigned (numeral : Numeral) : List Char :=
  match numeral.fraction? with
  | none => numeral.whole
  | some fraction => numeral.whole ++ '.' :: fraction

/-- How a number is written. -/
def Numeral.print (numeral : Numeral) : List Char :=
  if numeral.negative then '-' :: numeral.unsigned else numeral.unsigned

/-- The end of an opening tag. -/
def printTagEnd (isEmpty : Bool) : List Char := if isEmpty then [' ', '/', '>'] else ['>']

mutual

/-- How nodes are written. -/
def Nodes.print : {afterText : Bool} → Nodes afterText → List Char
  | _, .nil => []
  | _, .text run rest => Text.escape run.text ++ rest.print
  | _, .interpolation body rest => '{' :: '{' :: (body.text ++ '}' :: '}' :: rest.print)
  | _, .comment body rest =>
    '<' :: '!' :: '-' :: '-' :: (body.text ++ '-' :: '-' :: '>' :: rest.print)
  | _, .closingTag name _ rest => '<' :: '/' :: (name ++ '>' :: rest.print)
  | _, .openingTag name attributes isEmpty rest =>
    '<' :: (name.name ++ (attributes.print ++ (printTagEnd isEmpty ++ rest.print)))

/-- How attributes are written, each behind one space. -/
def Attributes.print : Attributes → List Char
  | .nil => []
  | .flag key rest => ' ' :: (key.name ++ rest.print)
  | .valued key value rest => ' ' :: (key.name ++ '=' :: (value.print ++ rest.print))

/-- How a value is written. -/
def Value.print : Value → List Char
  | .quoted quoted => '"' :: (quoted.contents ++ ['"'])
  | .number numeral => numeral.print
  | .literal truth => truth.text
  | .subtree nodes => '{' :: (nodes.print ++ ['}'])

end

/-- The lexemes of a text: each blank by itself, and the words between them. -/
def wordsOf : List Char → List Lexeme
  | [] => []
  | c :: rest =>
    if isBlank c then
      .blank c :: wordsOf rest
    else
      { kind := .text
        source := Text.escape (c :: rest.takeWhile (!isBlank ·))
        text := c :: rest.takeWhile (!isBlank ·) } ::
        wordsOf (rest.dropWhile (!isBlank ·))
termination_by text => text.length
decreasing_by
  · simp
  · exact Nat.lt_succ_of_le (List.dropWhile_sublist _).length_le

/-- The lexeme of one character of a tag. -/
def tagMark (c : Char) : Lexeme := { kind := .tagPunctuation, source := [c] }

/-- The lexemes of the end of an opening tag. -/
def tagEndLexemes (isEmpty : Bool) : List Lexeme :=
  if isEmpty then [.blank ' ', tagMark '/', tagMark '>'] else [tagMark '>']

mutual

/-- The lexemes of nodes. -/
def Nodes.lexemes : {afterText : Bool} → Nodes afterText → List Lexeme
  | _, .nil => []
  | _, .text run rest => wordsOf run.text ++ rest.lexemes
  | _, .interpolation body rest =>
    { kind := .interpolation, source := ['{', '{'] } :: (Expression.lexemes body.text ++
      { kind := .interpolation, source := ['}', '}'] } :: rest.lexemes)
  | _, .comment body rest =>
    { kind := .comment, source := ['<', '!', '-', '-'] ++ body.text ++ ['-', '-', '>'] } ::
      rest.lexemes
  | _, .closingTag name _ rest =>
    tagMark '<' :: tagMark '/' :: { kind := .tagName, source := name } :: tagMark '>' ::
      rest.lexemes
  | _, .openingTag name attributes isEmpty rest =>
    tagMark '<' :: { kind := .tagName, source := name.name } ::
      (attributes.lexemes ++ (tagEndLexemes isEmpty ++ rest.lexemes))

/-- The lexemes of attributes. A name is split into its markers. -/
def Attributes.lexemes : Attributes → List Lexeme
  | .nil => []
  | .flag key rest => .blank ' ' :: (AttributeName.lexemes key.name ++ rest.lexemes)
  | .valued key value rest =>
    .blank ' ' :: (AttributeName.lexemes key.name ++
      { kind := .equals, source := ['='] } :: (value.lexemes key.name ++ rest.lexemes))

/-- The lexemes of a value. The name of its attribute tells whether a quoted value is
an expression. -/
def Value.lexemes (name : List Char) : Value → List Lexeme
  | .quoted quoted =>
    { kind := .string, source := ['"'] } ::
      ((if AttributeName.isDirective name then Expression.lexemes quoted.contents
        else [{ kind := .string, source := quoted.contents }]) ++
      [{ kind := .string, source := ['"'] }])
  | .number numeral => [{ kind := .number, source := numeral.print }]
  | .literal truth => [{ kind := .literal, source := truth.text }]
  | .subtree nodes =>
    { kind := .subtreeBrace, source := ['{'] } ::
      (nodes.lexemes ++ [{ kind := .subtreeBrace, source := ['}'] }])

end

end TemplateLexer.Template

/-- A template is nodes that follow nothing. -/
abbrev TemplateLexer.Template := TemplateLexer.Template.Nodes false
