import TemplateLexer.Lexeme
import TemplateLexer.Quote

/-! # Expressions

The language inside interpolations and inside the values of directives. Its
lexer only serves highlighting, so it never fails: every character belongs to
some lexeme. At each point the first rule that applies decides the kind and the
extent of the next lexeme, and nothing is carried from one lexeme to the next.
-/

namespace TemplateLexer.Expression

/-- The words that are literals wherever they are found, even at the beginning of
a longer name. -/
def keywords : List (List Char) := ["true".toList, "false".toList, "null".toList]

/-- The operators of one character. -/
def operators : List Char :=
  ['+', '-', '*', '/', '%', '^', '&', '?', ':', '@', '<', '>', '!']

/-- The punctuation of the language. -/
def punctuation : List Char := ['[', ']', '(', ')', '.', ',']

/-- The characters that form an operator when they are doubled. -/
def doubledOperators : List Char := ['|', '&', '?', '=', '.']

/-- The characters that form an operator with an equals sign after them. -/
def comparisons : List Char := ['<', '>', '!']

/-- The characters that form an operator with a tilde before them. -/
def tildeFollowers : List Char := ['^', '_', '#', '!', '-', '?', '|', '<']

/-- Whether two neighbouring characters form one operator. -/
def isOperatorPair (first second : Char) : Bool :=
  doubledOperators.contains first && second == first ||
    comparisons.contains first && second == '=' ||
    first == '~' && tildeFollowers.contains second

/-- Whether a character may follow the first letter of an identifier. -/
def isIdentifierChar (c : Char) : Bool := c.isAlpha || c == '_'

/-- The length of the decimal point and the digits after it at the beginning of a
text. A point that is directly followed by another one is half of a range and no
decimal point. -/
def fraction : List Char → Nat
  | '.' :: '.' :: _ => 0
  | '.' :: rest => leadingDigits rest + 1
  | _ => 0

/-- Whether a number begins with this character before this text: with a digit,
or with a sign or a point before a digit. -/
def startsNumber (c : Char) (rest : List Char) : Bool :=
  c.isDigit || (c == '-' || c == '.') && rest.head?.any Char.isDigit

/-- How much of the text after its first character belongs to a number. A number
that begins with a point has no other point. -/
def numberTail (c : Char) (rest : List Char) : Nat :=
  if c == '.' then leadingDigits rest
  else leadingDigits rest + fraction (rest.drop (leadingDigits rest))

/-- How much of the text after the opening quote belongs to a string: through the
first equal quote, or all of it if there is none. A backslash protects the one
character after it. -/
def stringTail (quote : Char) : List Char → Nat
  | [] => 0
  | '\\' :: _ :: rest => stringTail quote rest + 2
  | c :: rest => if c == quote then 1 else stringTail quote rest + 1

/-- The kind of the lexeme that begins with `c` before `rest`, and the number of
characters of `rest` that belong to it. -/
def classify (c : Char) (rest : List Char) : Token.Kind × Nat :=
  if isBlank c then
    (if c == '\t' then .tab else .whitespace, 0)
  else if (Quote.ofChar? c).isSome then
    (.string, stringTail c rest)
  else if let some keyword := keywords.find? (·.isPrefixOf (c :: rest)) then
    (.literal, keyword.length - 1)
  else if c.isAlpha then
    (.identifier, (rest.takeWhile isIdentifierChar).length)
  else if startsNumber c rest then
    (.number, numberTail c rest)
  else if rest.head?.any (isOperatorPair c) then
    (.operator, 1)
  else if operators.contains c then
    (.operator, 0)
  else if punctuation.contains c then
    (.punctuation, 0)
  else
    (.plain, 0)

/-- The lexemes of an expression. -/
def lexemes : List Char → List Lexeme
  | [] => []
  | c :: rest =>
    let (kind, tail) := classify c rest
    { kind, source := c :: rest.take tail } :: lexemes (rest.drop tail)
termination_by text => text.length
decreasing_by
  simp only [List.length_drop, List.length_cons]
  omega

/-- The tokens of an expression that makes up the whole input. -/
def tokens (input : String) : List Token :=
  Lexeme.placeAll 0 (lexemes input.toList)

/-- The points of a range are not decimal points. -/
example : (tokens "1..5").map (·.text) = ["1", "..", "5"] := by decide +kernel

end TemplateLexer.Expression
