import TemplateLexer.Markup.Comment
import TemplateLexer.Markup.Interpolation
import TemplateLexer.Markup.Step

/-! # Steps in content

Content holds words, interpolations, comments, and tags. A closing tag and a
comment are read whole, an opening tag only up to its name.
-/

namespace TemplateLexer.Markup.Step

/-- A closing tag, given the blanks after its `<` and what follows its slash. Its
name may be missing, but nothing may stand between the name and `>`. -/
def closingTag (depth : Nat) (blanks text : List Char) : Step :=
  match text.dropWhile isNameChar with
  | '>' :: rest =>
    .advanced
      [.tagPunctuation '<', .blanks blanks, .tagPunctuation '/',
        .token .tagName (text.takeWhile isNameChar), .tagPunctuation '>']
      (.content depth) rest
  | unread => .refused .unterminatedTag unread

/-- An opening tag up to its name, or a whole comment, given the blanks after its
`<` and what follows them. -/
def openingTag (depth : Nat) (blanks text : List Char) : Step :=
  let name := text.takeWhile isNameChar
  let rest := text.dropWhile isNameChar
  if name.isEmpty then .refused .missingTagName text
  else
    match Comment.tail? name rest with
    | some tail =>
      .advanced [.token .comment ('<' :: blanks ++ name ++ rest.take tail)] (.content depth)
        (rest.drop tail)
    | none =>
      .advanced [.tagPunctuation '<', .blanks blanks, .token .tagName name] (.tag depth) rest

/-- What follows a `<` in content. -/
def afterLessThan (depth : Nat) (text : List Char) : Step :=
  let blanks := text.takeWhile isBlank
  match text.dropWhile isBlank with
  | '/' :: rest => closingTag depth blanks rest
  | rest => openingTag depth blanks rest

/-- An interpolation, given what follows its opening brackets. One without an end
is noticed at these brackets. -/
def interpolation (depth : Nat) (text : List Char) : Step :=
  match Interpolation.extent text with
  | .closed length =>
    .advanced [.interpolation (text.take length)] (.content depth) (text.drop (length + 2))
  | .tooDeep index => .refused .quoteDepthExceeded (text.drop index)
  | .unclosed => .refused .unterminatedInterpolation ('{' :: '{' :: text)

/-- A word of text. Closing curly brackets end it unless they mean nothing here. -/
def word (closes : Bool) (depth : Nat) (text : List Char) : Step :=
  let length := Text.wordLength closes text
  .advanced [.text (text.take length)] (.content depth) (text.drop length)

/-- Whether a closing curly bracket has a meaning in content. It has none outside of
all subtrees if the lexer is lenient. -/
def curlyCloses (lenient : Bool) (depth : Nat) : Bool := !(lenient && depth == 0)

/-- A closing curly bracket that has a meaning. It leads back to the tag that the
subtree belongs to; outside of all subtrees it is an error. -/
def closingCurly (depth : Nat) (rest : List Char) : Step :=
  match depth with
  | 0 => .refused .unescapedClosingCurly ('}' :: rest)
  | outer + 1 => .advanced [.subtreeBrace '}'] (.tag outer) rest

/-- Content that begins with a character other than a blank. -/
def content (lenient : Bool) (depth : Nat) (c : Char) (rest : List Char) : Step :=
  if c == '<' then afterLessThan depth rest
  else if c == '{' && rest.head? == some '{' then interpolation depth rest.tail
  else if c == '}' && curlyCloses lenient depth then closingCurly depth rest
  else word (curlyCloses lenient depth) depth (c :: rest)

theorem closingTag_leavesLess (depth : Nat) (blanks text : List Char) :
    (closingTag depth blanks text).LeavesLess text.length := by
  unfold closingTag
  have hlength := (List.dropWhile_sublist (l := text) isNameChar).length_le
  split
  next hrest =>
    rw [hrest, List.length_cons] at hlength
    exact leavesLess_advanced (by omega)
  next => exact leavesLess_refused _ _ _

theorem openingTag_leavesLess (depth : Nat) (blanks text : List Char) :
    (openingTag depth blanks text).LeavesLess (text.length + 1) := by
  unfold openingTag
  dsimp only
  have hlength := (List.dropWhile_sublist (l := text) isNameChar).length_le
  split
  next => exact leavesLess_refused _ _ _
  next =>
    split
    next tail _ =>
      refine leavesLess_advanced ?_
      rw [List.length_drop]
      omega
    next => exact leavesLess_advanced (by omega)

theorem afterLessThan_leavesLess (depth : Nat) (text : List Char) :
    (afterLessThan depth text).LeavesLess (text.length + 1) := by
  unfold afterLessThan
  have hlength := (List.dropWhile_sublist (l := text) isBlank).length_le
  split
  next rest hrest =>
    rw [hrest, List.length_cons] at hlength
    intro emitted next unread hstep
    have := closingTag_leavesLess depth _ rest emitted next unread hstep
    omega
  next =>
    intro emitted next unread hstep
    have := openingTag_leavesLess depth _ _ emitted next unread hstep
    omega

theorem interpolation_leavesLess (depth : Nat) (text : List Char) :
    (interpolation depth text).LeavesLess (text.length + 1) := by
  unfold interpolation
  split
  · refine leavesLess_advanced ?_
    rw [List.length_drop]
    omega
  · exact leavesLess_refused _ _ _
  · exact leavesLess_refused _ _ _

theorem word_leavesLess {closes : Bool} {c : Char} {rest : List Char} (depth : Nat)
    (h : Text.endsWord closes c rest = false) :
    (word closes depth (c :: rest)).LeavesLess (c :: rest).length := by
  unfold word
  refine leavesLess_advanced ?_
  have hpos := Text.wordLength_pos h
  rw [List.length_drop, List.length_cons]
  omega

theorem closingCurly_leavesLess (depth : Nat) (rest : List Char) :
    (closingCurly depth rest).LeavesLess (rest.length + 1) := by
  unfold closingCurly
  split
  · exact leavesLess_refused _ _ _
  · exact leavesLess_advanced (by omega)

theorem content_leavesLess (lenient : Bool) (depth : Nat) {c : Char} (rest : List Char)
    (hc : isBlank c = false) :
    (content lenient depth c rest).LeavesLess (c :: rest).length := by
  unfold content
  split
  next => exact afterLessThan_leavesLess depth rest
  next hlt =>
    split
    next =>
      intro emitted next unread hstep
      have hrest := interpolation_leavesLess depth rest.tail emitted next unread hstep
      rw [List.length_tail] at hrest
      rw [List.length_cons]
      omega
    next hopening =>
      split
      next => exact closingCurly_leavesLess depth rest
      next hcurly =>
        refine word_leavesLess depth ?_
        simp only [Text.endsWord, hc, Bool.false_or]
        simp_all

end TemplateLexer.Markup.Step
