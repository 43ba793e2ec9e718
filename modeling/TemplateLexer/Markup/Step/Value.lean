import TemplateLexer.Markup.AttributeValue
import TemplateLexer.Markup.Step

/-! # Steps at a value

The first character of a value tells whether it is quoted, markup, or bare. After
a quoted or bare value the tag goes on; markup is content one subtree deeper.
-/

namespace TemplateLexer.Markup.Step

/-- A quoted value, given what follows its opening quote. One without an end is
noticed at this quote. -/
def quotedValue (name : List Char) (depth : Nat) (text : List Char) : Step :=
  match QuotedValue.contentsLength? text with
  | some length =>
    .advanced [.quotedValue (text.take length) name] (.tag depth) (text.drop (length + 1))
  | none => .refused .unterminatedString ('"' :: text)

/-- A bare value. It is refused at the first character that cannot belong to such
a value or to its boundary. -/
def bareValue (value : BareValue) (depth : Nat) (text : List Char) : Step :=
  let source := text.take (value.extent text)
  let rest := text.drop (value.extent text)
  if value.isComplete source && BareValue.atBoundary rest then
    .advanced [.token value.kind source] (.tag depth) rest
  else
    .refused value.malformed rest

/-- The value of an attribute, beginning with a character other than a blank. -/
def value (name : List Char) (depth : Nat) (c : Char) (rest : List Char) : Step :=
  if c == '"' then quotedValue name depth rest
  else if c == '{' then .advanced [.subtreeBrace '{'] (.content (depth + 1)) rest
  else
    match BareValue.ofFirst? c with
    | some bare => bareValue bare depth (c :: rest)
    | none => .refused .unsupportedAttributeValue (c :: rest)

theorem quotedValue_leavesLess (name : List Char) (depth : Nat) (text : List Char) :
    (quotedValue name depth text).LeavesLess (text.length + 1) := by
  unfold quotedValue
  split
  · refine leavesLess_advanced ?_
    rw [List.length_drop]
    omega
  · exact leavesLess_refused _ _ _

theorem bareValue_leavesLess (bare : BareValue) (depth : Nat) (text : List Char) :
    (bareValue bare depth text).LeavesLess text.length := by
  unfold bareValue
  dsimp only
  split
  next haccepted =>
    refine leavesLess_advanced ?_
    have hsource := BareValue.ne_nil_of_isComplete (Bool.and_eq_true_iff.mp haccepted).1
    have htake := List.length_pos_iff.mpr hsource
    rw [List.length_take] at htake
    rw [List.length_drop]
    omega
  next => exact leavesLess_refused _ _ _

theorem value_leavesLess (name : List Char) (depth : Nat) (c : Char) (rest : List Char) :
    (value name depth c rest).LeavesLess (c :: rest).length := by
  unfold value
  split
  next => exact quotedValue_leavesLess name depth rest
  next =>
    split
    next => exact leavesLess_advanced (by simp)
    next =>
      split
      next bare _ => exact bareValue_leavesLess bare depth (c :: rest)
      next => exact leavesLess_refused _ _ _

end TemplateLexer.Markup.Step
