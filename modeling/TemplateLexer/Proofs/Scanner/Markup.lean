import TemplateLexer.Proofs.Scanner.Expression
import TemplateLexer.Markup.Run

/-! # Scanning markup

Markup as a scanner reads it. Text is held back as a pending span until something
else begins, a tag until its name is read, and blanks in front of a tag until it is
known that a tag follows them.
-/

namespace TemplateLexer.Scanner.Markup

open TemplateLexer.Markup Scan

/-- Writes the pending text, if there is any, up to a position. -/
def flushText (stop : Nat) : Scan Unit := do
  if ← hasStart then
    setStop stop
    emit (.text (← cut))
  else return ()

/-- Holds back text from a position on, unless some is held back before it. -/
def holdText (start : Nat) : Scan Unit := do
  if ← hasStart then return ()
  else setStart start

/-- Reads a character of text, or an escape. -/
def takeText : Scan Unit := do
  let consumed ← next?
  if consumed == some '\\' && (← peek?).any Text.isEscapable then discard next?
  else return ()

/-- Reads a character of the body of an interpolation, or its closing brackets. The brackets
before the body begin at `opening`. -/
def interpolationStep (opening : Nat) : Scan (Progress Unit Unit) := do
  let candidate ← position
  match ← next? with
  | none => refuse .unterminatedInterpolation opening
  | some c =>
    readNested c candidate
    let nesting ← look fun scanner => scanner.nesting
    if !nesting.isOpen && c == '}' && (← peek?) == some '}' then
      discard next?
      setStop candidate
      return .done ()
    else return .again ()

/-- Reads the body of an interpolation through its closing brackets. -/
def interpolationBody (opening : Nat) : Scan Unit := loop (fun _ => interpolationStep opening) ()

def interpolation : Scan Unit := do
  enter
  let opening ← position
  skip 2
  setStart (← position)
  change fun scanner => { scanner with nesting := {} }
  interpolationBody opening
  let body ← cut
  emit (.token .interpolation Fragment.interpolationOpening)
  Expression.embed body
  emit (.token .interpolation Fragment.interpolationClosing)

/-- Reads a name, if one begins here. -/
def identifier : Scan (Option (List Char)) := do
  if (← peek?).any isNameChar then
    setStart (← position)
    skipWhile isNameChar
    setStop (← position)
    return some (← cut)
  else return none

/-- Moves behind the end of a comment, or over a character of it. -/
def seekStep : Scan (Progress Unit Bool) := do
  if ← atEnd then return .done false
  else if ← startsWith Comment.terminator then
    skip Comment.terminator.length
    return .done true
  else
    discard next?
    return .again ()

/-- Moves behind the next end of a comment, or to the end of the text. -/
def seekCommentEnd : Scan Bool := loop (fun _ => seekStep) ()

/-- Moves behind the next end of a comment if a tag has the name of one. Without an end
it moves nowhere. -/
def tryCommentEnd (name : List Char) : Scan Bool := do
  if name == Comment.tagName then
    let saved ← position
    if ← seekCommentEnd then return true
    else
      rewind saved
      return false
  else return false

/-- Reads a slash, if it comes next. -/
def trySlash : Scan Bool := do
  if (← peek?) == some '/' then
    discard next?
    return true
  else return false

/-- Writes the name of an attribute. A binding has a bracket at either end of it. -/
def writeName (name : List Char) : Scan Unit := do
  check (!AttributeName.isBinding name || 1 ≤ name.length - 1) .reversed
  emit (.attributeName name)

/-- The rest of a closing tag. -/
def closingTag (blanks : List Char) (name : Option (List Char)) : Scan Unit := do
  if (← peek?) == some '>' then
    discard next?
    emit (.tagPunctuation '<')
    emit (.blanks blanks)
    emit (.tagPunctuation '/')
    emit (.token .tagName (name.getD []))
    emit (.tagPunctuation '>')
  else refuse .unterminatedTag (← position)

/-- The bracket that ends an opening tag. -/
def angleBracket : Scan Unit := do
  emit (.blanks (← takeBlanks))
  if (← peek?) == some '>' then
    discard next?
    emit (.tagPunctuation '>')
  else refuse .unterminatedTag (← position)

/-- The end of an opening tag. -/
def tagEnd : Scan Unit := do
  if ← trySlash then
    emit (.tagPunctuation '/')
    angleBracket
  else angleBracket

/-- Reads a character of a quoted value, given the one before it. The quote before the value
stands at `opening`. -/
def quotedStep (opening : Nat) (prior : Option Char) : Scan (Progress (Option Char) Unit) := do
  match ← next? with
  | none => refuse .unterminatedString opening
  | some c =>
    if c == '"' && prior != some '\\' then return .done ()
    else return .again (some c)

/-- Reads the contents of a quoted value through the quote that ends it, given the
character before them. -/
def quotedTail (opening : Nat) (prior : Option Char) : Scan Unit := loop (quotedStep opening) prior

/-- Writes what stands between the quotes under the name of an attribute. -/
def writeContents (contents name : List Char) : Scan Unit :=
  if AttributeName.isDirective name then Expression.embed contents
  else emit (.token .string contents)

def quotedValue (name : List Char) : Scan Unit := do
  let opening ← position
  discard next?
  setStart (← position)
  quotedTail opening none
  setStop (← previousPosition)
  let contents ← cut
  emit (.token .string ['"'])
  writeContents contents name
  emit (.token .string ['"'])

def atBoundary : Scan Bool := do
  return (← peek?).all fun c => isBlank c || c == '>'

/-- Reads a word in any letter case. -/
def spellWord (cause : LexError.Cause) : List Char → Scan Unit
  | [] => return ()
  | expected :: word => do
    if (← peek?).any (·.toLower == expected) then
      discard next?
      spellWord cause word
    else refuse cause (← position)

def truthValue (truth : Bool) : Scan Unit := do
  let start ← position
  let bare := BareValue.boolean truth
  spellWord bare.malformed (BareValue.word truth)
  if ← atBoundary then emit (.token bare.kind (← slice start (← position)))
  else refuse bare.malformed (← position)

/-- Reads a digit or the point of a number. -/
def numberStep (hadPoint hadDigit : Bool) : Scan (Progress (Bool × Bool) Bool) := do
  match ← peek? with
  | none => return .done hadDigit
  | some c =>
    if c.isDigit then
      discard next?
      return .again (hadPoint, true)
    else if c == '.' && hadPoint then refuse .malformedNumber (← position)
    else if c == '.' then
      discard next?
      return .again (true, hadDigit)
    else return .done hadDigit

/-- Reads digits with at most one point among them, and tells whether there is a digit. -/
def numberTail (hadPoint hadDigit : Bool) : Scan Bool :=
  loop (fun seen => numberStep seen.1 seen.2) (hadPoint, hadDigit)

/-- What a number is behind its sign. -/
def unsignedValue : Scan Unit := do
  if (← numberTail false false) && (← atBoundary) then
    setStop (← position)
    emit (.token .number (← cut))
  else refuse .malformedNumber (← position)

def numberValue : Scan Unit := do
  setStart (← position)
  if (← peek?) == some '-' then
    discard next?
    unsignedValue
  else unsignedValue

/-- What a scanner of markup goes by: whether it is lenient. -/
structure Rules where
  lenient : Bool

mutual

/-- Reads content until the text ends, or until the bracket that ends a subtree. -/
def Rules.contentTail (rules : Rules) (within : Bool) : Scan Unit := do
  match ← peek? with
  | none => flushText (← position)
  | some c =>
    if c == '}' && within then flushText (← position)
    else if c == '}' && !rules.lenient then
      flushText (← position)
      refuse .unescapedClosingCurly (← position)
    else
      let before ← position
      if ← startsWith Fragment.interpolationOpening then
        flushText before
        interpolation
        rules |>.contentTail within
      else
        let blanks ← takeBlanks
        if (← peek?) == some '<' then
          flushText before
          emit (.blanks blanks)
          rules |>.tag
          rules |>.contentTail within
        else
          rewind before
          holdText before
          takeText
          discard takeBlanks
          rules |>.contentTail within
partial_fixpoint

def Rules.content (rules : Rules) (within : Bool) : Scan Unit := do
  enter
  rules |>.contentTail within
partial_fixpoint

def Rules.tag (rules : Rules) : Scan Unit := do
  enter
  let start ← position
  discard next?
  let blanks ← takeBlanks
  let closing ← trySlash
  let name? ← identifier
  if closing then closingTag blanks name?
  else
    match name? with
    | none => refuse .missingTagName (← position)
    | some name =>
      if ← tryCommentEnd name then
        emit (.token .comment (← slice start (← position)))
      else
        emit (.tagPunctuation '<')
        emit (.blanks blanks)
        emit (.token .tagName name)
        rules |>.attributes
        tagEnd
partial_fixpoint

def Rules.attributes (rules : Rules) : Scan Unit := do
  if ← atEnd then return ()
  else if ← rules |>.tryAttribute then rules |>.attributes
  else return ()
partial_fixpoint

/-- Reads an attribute and tells whether there was one. -/
def Rules.tryAttribute (rules : Rules) : Scan Bool := do
  enter
  emit (.blanks (← takeBlanks))
  let start ← position
  match ← identifier with
  | none =>
    if (← peek?) == some '"' then refuse .expectedAttributeKey (← position)
    else return false
  | some name =>
    if name.head?.any Char.isDigit then refuse .expectedAttributeKey start
    else
      writeName name
      emit (.blanks (← takeBlanks))
      if (← peek?) == some '=' then
        discard next?
        emit .equals
        emit (.blanks (← takeBlanks))
        rules |>.value name
        return true
      else if Step.isReserved name then refuse .expectedAttributeKey start
      else return true
partial_fixpoint

def Rules.value (rules : Rules) (name : List Char) : Scan Unit := do
  match ← peek? with
  | none => refuse .unsupportedAttributeValue (← position)
  | some c =>
    if c == '"' then quotedValue name
    else if c == '{' then rules |>.subtree
    else
      match BareValue.ofFirst? c with
      | some (.boolean truth) => truthValue truth
      | some .number => numberValue
      | none => refuse .unsupportedAttributeValue (← position)
partial_fixpoint

def Rules.subtree (rules : Rules) : Scan Unit := do
  discard next?
  emit (.subtreeBrace '{')
  rules |>.content true
  if (← peek?) == some '}' then
    discard next?
    emit (.subtreeBrace '}')
  else refuse .unterminatedSubtree (← position)
partial_fixpoint

end

end TemplateLexer.Scanner.Markup

namespace TemplateLexer

/-- What a scanner makes of an input, unless it runs forever: the tokens and the error
of the input, or a fault. -/
def scan (options : Options) (input : String) : Option (Except Scanner.Fault Lexed) := do
  let program : Scanner.Scan Unit :=
    match options.grammar with
    | .markup => Scanner.Markup.Rules.content ⟨options.lenient⟩ false
    | .expression => Scanner.Expression.run
  let (result, scanner) ← program { reader := { text := input.toList } }
  return match result with
  | .ok () => .ok { tokens := scanner.stream.tokens }
  | .error (.refused error) => .ok { tokens := scanner.stream.tokens, error := some error }
  | .error (.faulted fault) => .error fault

end TemplateLexer
