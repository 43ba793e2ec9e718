import TemplateLexer.Proofs.Scanner.Logic
import TemplateLexer.Proofs.Scanner.Markup

/-! # The parts of a scanner of markup

Content, tags, attributes and subtrees are read by programs that call each other. Each of them is
taken apart here at the calls that it makes: what it does before a call is a program of its own,
whose result tells which call follows. So it can be said which part is called within which other
one, and with what scanner.
-/

namespace TemplateLexer.Scanner.Markup

open TemplateLexer.Markup Scan

/-- What content goes on with. -/
inductive Turn where
  | ends
  | text
  | interpolation
  | tag

/-- Decides what content goes on with, up to where an interpolation or a tag begins. -/
def Rules.lookAhead (rules : Rules) (within : Bool) : Scan Turn := do
  match ← peek? with
  | none =>
    flushText (← position)
    return .ends
  | some c =>
    if c == '}' && within then
      flushText (← position)
      return .ends
    else if c == '}' && !rules.lenient then
      flushText (← position)
      refuse .unescapedClosingCurly (← position)
    else
      let before ← position
      if ← startsWith Fragment.interpolationOpening then
        flushText before
        return .interpolation
      else
        let blanks ← takeBlanks
        if (← peek?) == some '<' then
          flushText before
          emit (.blanks blanks)
          return .tag
        else
          rewind before
          holdText before
          takeText
          discard takeBlanks
          return .text

/-- One round of the loop that reads content. The result tells whether another one follows. -/
def Rules.round (rules : Rules) (within : Bool) : Scan Bool := do
  match ← rules.lookAhead within with
  | .ends => return false
  | .text => return true
  | .interpolation =>
    interpolation
    return true
  | .tag =>
    rules.tag
    return true

/-- Whatever would follow a refusal. -/
theorem refuse_bind {α β : Type} (cause : LexError.Cause) (position : Nat) (next : α → Scan β) :
    (refuse cause position : Scan α) >>= next = refuse cause position := rfl

/-- Content is read round by round. -/
theorem Rules.contentTail_eq (rules : Rules) (within : Bool) :
    rules.contentTail within = do
      if ← rules.round within then rules.contentTail within
      else return () := by
  conv =>
    lhs
    rw [Rules.contentTail]
  rw [Rules.round, Rules.lookAhead]
  simp only [bind_assoc]
  refine bind_congr fun c? => ?_
  cases c? with
  | none => simp
  | some c =>
      dsimp only
      split
      next => simp
      next =>
        split
        next => simp [refuse_bind]
        next =>
          simp only [bind_assoc]
          refine bind_congr fun before => bind_congr fun interpolates => ?_
          split
          next => simp
          next =>
            simp only [bind_assoc]
            refine bind_congr fun blanks => bind_congr fun c? => ?_
            split
            next => simp
            next => simp

/-- What a tag begins with. The result tells whether attributes follow, which they do unless the
tag is a closing tag or a comment. -/
def tagOpening : Scan Bool := do
  enter
  let start ← position
  discard next?
  let blanks ← takeBlanks
  let closing ← trySlash
  let name? ← identifier
  if closing then
    closingTag blanks name?
    return false
  else
    match name? with
    | none => refuse .missingTagName (← position)
    | some name =>
      if ← tryCommentEnd name then
        emit (.token .comment (← slice start (← position)))
        return false
      else
        emit (.tagPunctuation '<')
        emit (.blanks blanks)
        emit (.token .tagName name)
        return true

theorem Rules.tag_eq (rules : Rules) :
    rules.tag = do
      if ← tagOpening then
        rules.attributes
        tagEnd
      else return () := by
  rw [Rules.tag, tagOpening]
  simp only [bind_assoc]
  refine bind_congr fun _ => bind_congr fun start => bind_congr fun _ => ?_
  refine bind_congr fun blanks => bind_congr fun closing => bind_congr fun name? => ?_
  split
  next => simp
  next =>
    cases name? with
    | none => simp [refuse_bind]
    | some name =>
        simp only [bind_assoc]
        refine bind_congr fun comment => ?_
        split
        next => simp
        next => simp

/-- What an attribute begins with. -/
inductive AttributeHead where
  /-- No attribute begins. -/
  | absent
  /-- The attribute is a name alone. -/
  | flag
  /-- A value follows the name. -/
  | key (name : List Char)

/-- Reads what an attribute begins with, up to its value. -/
def attributeHead : Scan AttributeHead := do
  enter
  emit (.blanks (← takeBlanks))
  let start ← position
  match ← identifier with
  | none =>
    if (← peek?) == some '"' then refuse .expectedAttributeKey (← position)
    else return .absent
  | some name =>
    if name.head?.any Char.isDigit then refuse .expectedAttributeKey start
    else
      writeName name
      emit (.blanks (← takeBlanks))
      if (← peek?) == some '=' then
        discard next?
        emit .equals
        emit (.blanks (← takeBlanks))
        return .key name
      else if Step.isReserved name then refuse .expectedAttributeKey start
      else return .flag

theorem Rules.tryAttribute_eq (rules : Rules) :
    rules.tryAttribute = do
      match ← attributeHead with
      | .absent => return false
      | .flag => return true
      | .key name =>
        rules.value name
        return true := by
  rw [Rules.tryAttribute, attributeHead]
  simp only [bind_assoc]
  refine bind_congr fun _ => bind_congr fun blanks => bind_congr fun _ => ?_
  refine bind_congr fun start => bind_congr fun name? => ?_
  cases name? with
  | none =>
      simp only [bind_assoc]
      refine bind_congr fun c? => ?_
      split
      next => simp [refuse_bind]
      next => simp
  | some name =>
      dsimp only
      split
      next => simp [refuse_bind]
      next =>
        simp only [bind_assoc]
        refine bind_congr fun _ => bind_congr fun spaces => bind_congr fun _ => ?_
        refine bind_congr fun c? => ?_
        split
        next => simp
        next =>
          split
          next => simp [refuse_bind]
          next => simp

/-- What a subtree begins with. -/
def subtreeOpening : Scan Unit := do
  discard next?
  emit (.subtreeBrace '{')

/-- The bracket that ends a subtree. -/
def subtreeEnd : Scan Unit := do
  if (← peek?) == some '}' then
    discard next?
    emit (.subtreeBrace '}')
  else refuse .unterminatedSubtree (← position)

theorem Rules.subtree_eq (rules : Rules) :
    rules.subtree = (do
      subtreeOpening
      rules.content true
      subtreeEnd) := by
  rw [Rules.subtree, subtreeOpening, bind_assoc]
  rfl

/-- The parts of the program. The loop over the contents of a text or a subtree and one round of it
are told apart, and so are the loop over attributes and a single one. -/
inductive Part where
  | content (within : Bool)
  | contentTail (within : Bool)
  | round (within : Bool)
  | interpolation
  | tag
  | attributes
  | oneAttribute
  | value (name : List Char)
  | subtree

/-- What a part does. The result tells whether it has to have read something. -/
def Part.program (rules : Rules) : Part → Scan Bool
  | .content within => do
    rules.content within
    return false
  | .contentTail within => do
    rules.contentTail within
    return false
  | .round within => rules.round within
  | .interpolation => do
    Markup.interpolation
    return true
  | .tag => do
    rules.tag
    return true
  | .attributes => do
    rules.attributes
    return false
  | .oneAttribute => rules.tryAttribute
  | .value name => do
    rules.value name
    return false
  | .subtree => do
    rules.subtree
    return true

/-- The place of a part among the others, in the order in which they call each other where nothing
is read in between. It does not depend on what a part is given. -/
def Part.rank : Part → Nat
  | .content _ => 8
  | .contentTail _ => 7
  | .round _ => 6
  | .tag => 5
  | .attributes => 4
  | .oneAttribute => 3
  | .value _ => 2
  | .subtree => 1
  | .interpolation => 0

/-- A part, and the scanner that it is called with. -/
structure Call where
  part : Part
  scanner : Scanner

/-- The whole program is called at the start of a text. -/
def Call.start (input : List Char) : Call :=
  { part := .content false, scanner := { reader := { text := input } } }

/-- A call that is made while another one lasts, with the scanner that it is made with. -/
inductive Calls (rules : Rules) : Call → Call → Prop where
  | contentTail {within : Bool} {first last : Scanner} (h : Runs enter first (.ok ()) last) :
      Calls rules ⟨.content within, first⟩ ⟨.contentTail within, last⟩
  | round {within : Bool} {first : Scanner} :
      Calls rules ⟨.contentTail within, first⟩ ⟨.round within, first⟩
  | nextRound {within : Bool} {first last : Scanner}
      (h : Runs (rules.round within) first (.ok true) last) :
      Calls rules ⟨.contentTail within, first⟩ ⟨.contentTail within, last⟩
  | interpolation {within : Bool} {first last : Scanner}
      (h : Runs (rules.lookAhead within) first (.ok .interpolation) last) :
      Calls rules ⟨.round within, first⟩ ⟨.interpolation, last⟩
  | tag {within : Bool} {first last : Scanner}
      (h : Runs (rules.lookAhead within) first (.ok .tag) last) :
      Calls rules ⟨.round within, first⟩ ⟨.tag, last⟩
  | attributes {first last : Scanner} (h : Runs tagOpening first (.ok true) last) :
      Calls rules ⟨.tag, first⟩ ⟨.attributes, last⟩
  | oneAttribute {first : Scanner} (hend : first.reader.atEnd = false) :
      Calls rules ⟨.attributes, first⟩ ⟨.oneAttribute, first⟩
  | nextAttribute {first last : Scanner} (hend : first.reader.atEnd = false)
      (h : Runs rules.tryAttribute first (.ok true) last) :
      Calls rules ⟨.attributes, first⟩ ⟨.attributes, last⟩
  | value {name : List Char} {first last : Scanner}
      (h : Runs attributeHead first (.ok (.key name)) last) :
      Calls rules ⟨.oneAttribute, first⟩ ⟨.value name, last⟩
  | subtree {name : List Char} {first : Scanner} (h : first.reader.peek? = some '{') :
      Calls rules ⟨.value name, first⟩ ⟨.subtree, first⟩
  | content {first last : Scanner} (h : Runs subtreeOpening first (.ok ()) last) :
      Calls rules ⟨.subtree, first⟩ ⟨.content true, last⟩

end TemplateLexer.Scanner.Markup
