import TemplateLexer.Markup.AttributeValue
import TemplateLexer.Markup.Step

/-! # Steps in a tag

A tag goes on with attributes until `>`, which a slash may precede. Digits at the
beginning of a name and truth values without an equals sign are values that lack
their name.
-/

namespace TemplateLexer.Markup.Step

/-- A truth value where the name of an attribute is expected. -/
def isReserved (name : List Char) : Bool :=
  name.map Char.toLower == BareValue.word true || name.map Char.toLower == BareValue.word false

/-- An attribute up to the equals sign behind its name, or all of it if there is
none. A name that begins with a digit is a value without a name, and so is a
truth value that no equals sign follows. -/
def attributeKey (depth : Nat) (text : List Char) : Step :=
  let name := text.takeWhile isNameChar
  let afterName := text.dropWhile isNameChar
  let emitted := [.attributeName name, .blanks (afterName.takeWhile isBlank)]
  if name.head?.any Char.isDigit then .refused .expectedAttributeKey text
  else
    match afterName.dropWhile isBlank with
    | '=' :: rest => .advanced (emitted ++ [.equals]) (.value name depth) rest
    | rest =>
      if isReserved name then .failed emitted ⟨.expectedAttributeKey, text⟩
      else .advanced emitted (.tag depth) rest

/-- The end of a tag. -/
def tagEnd (depth : Nat) (c : Char) (rest : List Char) : Step :=
  if c == '>' then .advanced [.tagPunctuation '>'] (.content depth) rest
  else .refused .unterminatedTag (c :: rest)

/-- A tag that goes on with a character other than a blank. -/
def tag (depth : Nat) (c : Char) (rest : List Char) : Step :=
  if isNameChar c then attributeKey depth (c :: rest)
  else if c == '"' then .refused .expectedAttributeKey (c :: rest)
  else if c == '/' then .advanced [.tagPunctuation '/'] (.tagEnd depth) rest
  else tagEnd depth c rest

theorem attributeKey_leavesLess {c : Char} (depth : Nat) (rest : List Char)
    (hc : isNameChar c) :
    (attributeKey depth (c :: rest)).LeavesLess (c :: rest).length := by
  unfold attributeKey
  simp only [List.dropWhile_cons, hc, if_true]
  have hname := (List.dropWhile_sublist (l := rest) isNameChar).length_le
  have hblanks := (List.dropWhile_sublist (l := rest.dropWhile isNameChar) isBlank).length_le
  rw [List.length_cons]
  split
  next => exact leavesLess_refused _ _ _
  next =>
    split
    next hrest =>
      rw [hrest, List.length_cons] at hblanks
      exact leavesLess_advanced (by omega)
    next =>
      split
      next => rintro _ _ _ ⟨⟩
      next => exact leavesLess_advanced (by omega)

theorem tagEnd_leavesLess (depth : Nat) (c : Char) (rest : List Char) :
    (tagEnd depth c rest).LeavesLess (c :: rest).length := by
  unfold tagEnd
  split
  · exact leavesLess_advanced (by simp)
  · exact leavesLess_refused _ _ _

theorem tag_leavesLess (depth : Nat) (c : Char) (rest : List Char) :
    (tag depth c rest).LeavesLess (c :: rest).length := by
  unfold tag
  split
  next hc => exact attributeKey_leavesLess depth rest hc
  next =>
    split
    next => exact leavesLess_refused _ _ _
    next =>
      split
      next => exact leavesLess_advanced (by simp)
      next => exact tagEnd_leavesLess depth c rest

end TemplateLexer.Markup.Step
