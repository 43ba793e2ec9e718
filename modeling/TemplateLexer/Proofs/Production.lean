import TemplateLexer.Proofs.Extent

/-! # Productions of markup

What a step can do, said once for all proofs about it: the ways to read a
construct, and the ways to refuse what comes next. Every way writes the text that
is read as the parts it consists of, with the conditions under which exactly this
part is read, so that a proof about steps is a case for each production.
-/

namespace TemplateLexer.Markup

/-- A run of blanks. -/
def AllBlank (run : List Char) : Prop := ∀ c ∈ run, isBlank c

/-- A run of name characters, which may be empty. -/
def AllName (run : List Char) : Prop := ∀ c ∈ run, isNameChar c

theorem Comment.allName_tagName : AllName Comment.tagName := by
  intro c hc
  simp only [Comment.tagName, List.mem_cons, List.not_mem_nil, or_false] at hc
  rcases hc with rfl | rfl | rfl <;> decide

/-- A text in content begins with no word. Outside of content there are none. -/
def BeginsNoWord (lenient : Bool) : State → List Char → Prop
  | .content depth, text => Text.wordLength (Step.curlyCloses lenient depth) text = 0
  | _, _ => True

/-- The lexer reads `emitted` at the beginning of a text, and goes on in another
state with the rest of it. -/
inductive Advance (lenient : Bool) :
    State → List Char → List Fragment → State → List Char → Prop where
  /-- A blank is read wherever it stands. -/
  | blank {state : State} {c : Char} {rest : List Char} (hc : isBlank c) :
      Advance lenient state (c :: rest) [.blanks [c]] state rest
  | closingTag {depth : Nat} {blanks name rest : List Char} (hblanks : AllBlank blanks)
      (hname : AllName name) :
      Advance lenient (.content depth) ('<' :: (blanks ++ '/' :: (name ++ '>' :: rest)))
        [.tagPunctuation '<', .blanks blanks, .tagPunctuation '/', .token .tagName name,
          .tagPunctuation '>']
        (.content depth) rest
  /-- The name of a comment is maximal, and the comment ends at its first end. -/
  | comment {depth : Nat} {blanks body rest : List Char} (hblanks : AllBlank blanks)
      (hbody : Stops isNameChar (body ++ rest))
      (hend : Comment.lengthThroughEnd? (body ++ rest) = some body.length) :
      Advance lenient (.content depth) ('<' :: (blanks ++ (Comment.tagName ++ (body ++ rest))))
        [.token .comment ('<' :: blanks ++ Comment.tagName ++ body)] (.content depth) rest
  | openingTag {depth : Nat} {blanks name rest : List Char} (hblanks : AllBlank blanks)
      (hname : AllName name) (hne : name ≠ []) (hrest : Stops isNameChar rest)
      (hcomment : Comment.tail? name rest = none) :
      Advance lenient (.content depth) ('<' :: (blanks ++ (name ++ rest)))
        [.tagPunctuation '<', .blanks blanks, .token .tagName name] (.tag depth) rest
  | interpolation {depth : Nat} {body rest : List Char}
      (hbody : Interpolation.extent (body ++ '}' :: '}' :: rest) = .closed body.length) :
      Advance lenient (.content depth) ('{' :: '{' :: (body ++ '}' :: '}' :: rest))
        [.interpolation body] (.content depth) rest
  | subtreeEnd {depth : Nat} {rest : List Char} :
      Advance lenient (.content (depth + 1)) ('}' :: rest) [.subtreeBrace '}'] (.tag depth) rest
  | word {depth : Nat} {word rest : List Char} (hne : word ≠ [])
      (hword : Text.wordLength (Step.curlyCloses lenient depth) (word ++ rest) = word.length) :
      Advance lenient (.content depth) (word ++ rest) [.text word] (.content depth) rest
  /-- The name of an attribute that has no value. -/
  | flag {depth : Nat} {name blanks rest : List Char} (hname : AllName name) (hne : name ≠ [])
      (hdigit : name.head?.any Char.isDigit = false) (hblanks : AllBlank blanks)
      (hstop : Stops isNameChar (blanks ++ rest)) (hrest : Stops isBlank rest)
      (hequals : rest.head? ≠ some '=') (hreserved : Step.isReserved name = false) :
      Advance lenient (.tag depth) (name ++ (blanks ++ rest))
        [.attributeName name, .blanks blanks] (.tag depth) rest
  /-- The name of an attribute, and the sign before its value. -/
  | key {depth : Nat} {name blanks rest : List Char} (hname : AllName name) (hne : name ≠ [])
      (hdigit : name.head?.any Char.isDigit = false) (hblanks : AllBlank blanks) :
      Advance lenient (.tag depth) (name ++ (blanks ++ '=' :: rest))
        [.attributeName name, .blanks blanks, .equals] (.value name depth) rest
  | slash {depth : Nat} {rest : List Char} :
      Advance lenient (.tag depth) ('/' :: rest) [.tagPunctuation '/'] (.tagEnd depth) rest
  | tagEnd {state : State} {depth : Nat} {rest : List Char}
      (hstate : state = .tag depth ∨ state = .tagEnd depth) :
      Advance lenient state ('>' :: rest) [.tagPunctuation '>'] (.content depth) rest
  | quotedValue {name : List Char} {depth : Nat} {contents rest : List Char}
      (hcontents : QuotedValue.contentsLength? (contents ++ '"' :: rest) = some contents.length) :
      Advance lenient (.value name depth) ('"' :: (contents ++ '"' :: rest))
        [.quotedValue contents name] (.tag depth) rest
  | subtree {name : List Char} {depth : Nat} {rest : List Char} :
      Advance lenient (.value name depth) ('{' :: rest) [.subtreeBrace '{']
        (.content (depth + 1)) rest
  | bareValue {name : List Char} {depth : Nat} {value : BareValue} {source rest : List Char}
      (hfirst : source.head?.bind BareValue.ofFirst? = some value)
      (hextent : value.extent (source ++ rest) = source.length)
      (hcomplete : value.isComplete source) (hboundary : BareValue.atBoundary rest) :
      Advance lenient (.value name depth) (source ++ rest) [.token value.kind source]
        (.tag depth) rest

/-- The lexer refuses a text after it has read `emitted` at its beginning. -/
inductive Refusal (lenient : Bool) : State → List Char → List Fragment → Failure → Prop where
  | endInSubtree {depth : Nat} :
      Refusal lenient (.content (depth + 1)) [] [] ⟨.unterminatedSubtree, []⟩
  | endInTag {state : State} {depth : Nat} (hstate : state = .tag depth ∨ state = .tagEnd depth) :
      Refusal lenient state [] [] ⟨.unterminatedTag, []⟩
  | endBeforeValue {name : List Char} {depth : Nat} :
      Refusal lenient (.value name depth) [] [] ⟨.unsupportedAttributeValue, []⟩
  | closingTag {depth : Nat} {blanks name rest : List Char} (hblanks : AllBlank blanks)
      (hname : AllName name) (hrest : Stops isNameChar rest) (hend : rest.head? ≠ some '>') :
      Refusal lenient (.content depth) ('<' :: (blanks ++ '/' :: (name ++ rest))) []
        ⟨.unterminatedTag, rest⟩
  | tagName {depth : Nat} {blanks rest : List Char} (hblanks : AllBlank blanks)
      (hrest : Stops isBlank rest) (hname : Stops isNameChar rest)
      (hslash : rest.head? ≠ some '/') :
      Refusal lenient (.content depth) ('<' :: (blanks ++ rest)) [] ⟨.missingTagName, rest⟩
  | tooDeep {depth index : Nat} {text : List Char}
      (htext : Interpolation.extent text = .tooDeep index) :
      Refusal lenient (.content depth) ('{' :: '{' :: text) []
        ⟨.quoteDepthExceeded, text.drop index⟩
  | interpolation {depth : Nat} {text : List Char}
      (htext : Interpolation.extent text = .unclosed) :
      Refusal lenient (.content depth) ('{' :: '{' :: text) []
        ⟨.unterminatedInterpolation, '{' :: '{' :: text⟩
  | closingCurly {rest : List Char} (hstrict : lenient = false) :
      Refusal lenient (.content 0) ('}' :: rest) [] ⟨.unescapedClosingCurly, '}' :: rest⟩
  /-- A digit where the name of an attribute is expected. -/
  | digit {depth : Nat} {c : Char} {rest : List Char} (hc : c.isDigit) :
      Refusal lenient (.tag depth) (c :: rest) [] ⟨.expectedAttributeKey, c :: rest⟩
  /-- A quote where the name of an attribute is expected. -/
  | quote {depth : Nat} {rest : List Char} :
      Refusal lenient (.tag depth) ('"' :: rest) [] ⟨.expectedAttributeKey, '"' :: rest⟩
  /-- A truth value where the name of an attribute is expected. -/
  | reserved {depth : Nat} {name blanks rest : List Char} (hname : AllName name)
      (hblanks : AllBlank blanks) (hstop : Stops isNameChar (blanks ++ rest))
      (hrest : Stops isBlank rest) (hequals : rest.head? ≠ some '=')
      (hreserved : Step.isReserved name) :
      Refusal lenient (.tag depth) (name ++ (blanks ++ rest))
        [.attributeName name, .blanks blanks]
        ⟨.expectedAttributeKey, name ++ (blanks ++ rest)⟩
  | tag {depth : Nat} {c : Char} {rest : List Char} (hblank : isBlank c = false)
      (hname : isNameChar c = false) (hc : c ∉ ['"', '/', '>']) :
      Refusal lenient (.tag depth) (c :: rest) [] ⟨.unterminatedTag, c :: rest⟩
  | tagEnd {depth : Nat} {c : Char} {rest : List Char} (hblank : isBlank c = false)
      (hc : c ≠ '>') :
      Refusal lenient (.tagEnd depth) (c :: rest) [] ⟨.unterminatedTag, c :: rest⟩
  | quotedValue {name : List Char} {depth : Nat} {text : List Char}
      (htext : QuotedValue.contentsLength? text = none) :
      Refusal lenient (.value name depth) ('"' :: text) [] ⟨.unterminatedString, '"' :: text⟩
  | bareValue {name : List Char} {depth : Nat} {value : BareValue} {source rest : List Char}
      (hfirst : (source ++ rest).head?.bind BareValue.ofFirst? = some value)
      (hextent : value.extent (source ++ rest) = source.length)
      (hrefused : (value.isComplete source && BareValue.atBoundary rest) = false) :
      Refusal lenient (.value name depth) (source ++ rest) [] ⟨value.malformed, rest⟩
  | value {name : List Char} {depth : Nat} {c : Char} {rest : List Char}
      (hblank : isBlank c = false) (hquote : c ≠ '"') (hcurly : c ≠ '{')
      (hfirst : BareValue.ofFirst? c = none) :
      Refusal lenient (.value name depth) (c :: rest) [] ⟨.unsupportedAttributeValue, c :: rest⟩

end TemplateLexer.Markup
