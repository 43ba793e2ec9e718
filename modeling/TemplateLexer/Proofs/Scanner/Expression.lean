import TemplateLexer.Proofs.Scanner.Operation

/-! # Scanning expressions

Expressions as a scanner reads them: it looks at the next character, moves over the
token that begins there, and writes what it moved over.
-/

namespace TemplateLexer.Scanner.Expression

open Scan

/-- Writes what was read since a position as one token. -/
def writeFrom (start : Nat) (kind : Token.Kind) : Scan Unit := do
  let source ← slice start (← position)
  write [{ kind, source }]

/-- Reads a character of a string, with the one that a backslash protects. -/
def stringStep (quote : Char) : Scan (Progress Unit Unit) := do
  match ← next? with
  | none => return .done ()
  | some c =>
    if c == '\\' then
      discard next?
      return .again ()
    else if c == quote then return .done ()
    else return .again ()

/-- Reads a string through the quote that ends it. -/
def stringTail (quote : Char) : Scan Unit := loop (fun _ => stringStep quote) ()

def string (quote : Char) : Scan Unit := do
  let start ← position
  discard next?
  stringTail quote
  writeFrom start .string

/-- Reads one of the keywords, if one comes next. -/
def tryKeyword : Scan Bool := do
  let reader ← look fun scanner => scanner.reader
  match Expression.keywords.find? reader.startsWith with
  | none => return false
  | some keyword =>
    skip keyword.length
    write [{ kind := .literal, source := keyword }]
    return true

def identifier : Scan Unit := do
  let start ← position
  discard next?
  skipWhile Expression.isIdentifierChar
  writeFrom start .identifier

def startsNumber : Scan Bool := do
  match ← peek? with
  | none => return false
  | some c =>
    if c.isDigit then return true
    else if c == '-' || c == '.' then return (← peekAt? 1).any Char.isDigit
    else return false

/-- Reads a digit of a number, or its point unless it has one already. -/
def numberStep (hadPoint : Bool) : Scan (Progress Bool Bool) := do
  match ← peek? with
  | none => return .done false
  | some c =>
    if c.isDigit then
      discard next?
      return .again hadPoint
    else if c == '.' && !hadPoint then
      discard next?
      return .again true
    else if c == '.' then return .done ((← characterAt (← previousPosition)) == '.')
    else return .done false

/-- Reads the digits of a number and its point. The result tells whether the point that was
read last is half of a range. -/
def numberTail (hadPoint : Bool) : Scan Bool := loop numberStep hadPoint

def number : Scan Unit := do
  let start ← position
  let first ← next?
  if ← numberTail (first == some '.') then
    let source ← slice start (← previousPosition)
    write [{ kind := .number, source }]
    discard next?
    write [{ kind := .operator, source := ['.', '.'] }]
  else writeFrom start .number

/-- The kind of a character that is a token by itself. -/
def kindOf (c : Char) : Token.Kind :=
  if Expression.operators.contains c then .operator
  else if Expression.punctuation.contains c then .punctuation
  else .plain

def operatorOrPunctuation (c : Char) : Scan Unit := do
  let start ← position
  if (← peekAt? 1).any (Expression.isOperatorPair c) then
    skip 2
    writeFrom start .operator
  else
    discard next?
    writeFrom start (kindOf c)

/-- Reads the token that begins with a character. -/
def token (c : Char) : Scan Unit := do
  if (Quote.ofChar? c).isSome then string c
  else if ← tryKeyword then return ()
  else if c.isAlpha then identifier
  else if ← startsNumber then number
  else operatorOrPunctuation c

/-- Reads the next token, with the blanks before it. -/
def runStep : Scan (Progress Unit Unit) := do
  if ← atEnd then return .done ()
  else
    let blanks ← takeBlanks
    emit (.blanks blanks)
    match ← peek? with
    | none => return .done ()
    | some c =>
      token c
      return .again ()

/-- Reads a whole expression. -/
def run : Scan Unit := loop (fun _ => runStep) ()

/-- Reads a text as an expression and writes it to the stream, with a reader of its
own. -/
def embed (source : List Char) : Scan Unit :=
  ExceptT.mk fun scanner => do
    let (result, inner) ← run { reader := { text := source }, stream := scanner.stream }
    return (result, { scanner with stream := inner.stream })

end TemplateLexer.Scanner.Expression
