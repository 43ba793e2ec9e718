/-! # Character classes

Two classes decide how a template is read. Blanks separate words and attributes,
and each of them is a token of its own. Name characters make up the names of
tags and attributes. Digits and letters are the ASCII ones of the core library.
-/

namespace TemplateLexer

/-- The code points with the Unicode property White_Space, as closed ranges in
increasing order. -/
def blankRanges : List (Nat × Nat) :=
  [(0x09, 0x0D), (0x20, 0x20), (0x85, 0x85), (0xA0, 0xA0), (0x1680, 0x1680),
    (0x2000, 0x200A), (0x2028, 0x2029), (0x202F, 0x202F), (0x205F, 0x205F),
    (0x3000, 0x3000)]

/-- A blank is a character with the Unicode property White_Space. Zero-width
characters such as U+200B do not have it. -/
def isBlank (c : Char) : Bool :=
  blankRanges.any fun (first, last) => first ≤ c.toNat && c.toNat ≤ last

/-- The whitespace of ASCII consists of blanks. -/
theorem isBlank_of_isWhitespace {c : Char} (h : c.isWhitespace) : isBlank c := by
  simp only [Char.isWhitespace, Bool.or_eq_true, decide_eq_true_eq] at h
  rcases h with ((rfl | rfl) | rfl) | rfl <;> decide

/-- The printable ASCII characters that have a meaning of their own in a tag. -/
def tagDelimiters : List Char :=
  ['<', '>', '{', '}', '\\', '/', '\'', '"', '=']

/-- The names of tags and attributes are made of all other printable ASCII
characters, so `*if`, `[value]`, `let-x` and `!--` are names. -/
def isNameChar (c : Char) : Bool :=
  '!' ≤ c && c ≤ '~' && !tagDelimiters.contains c

/-- A name never runs over a blank. -/
theorem isNameChar_eq_false_of_isBlank {c : Char} (h : isBlank c) : isNameChar c = false := by
  simp only [isBlank, blankRanges, List.any_cons, List.any_nil, Bool.or_false, Bool.or_eq_true,
    Bool.and_eq_true, decide_eq_true_eq] at h
  simp only [isNameChar, Char.le_def, UInt32.le_iff_toNat_le, Bool.and_eq_false_iff,
    decide_eq_false_iff_not]
  change (¬ 33 ≤ c.toNat ∨ ¬ c.toNat ≤ 126) ∨ _
  omega

/-- The number of digits at the beginning of a text. -/
def leadingDigits (text : List Char) : Nat := (text.takeWhile Char.isDigit).length

end TemplateLexer
