import TemplateLexer.Lexeme

/-! # Text between tags

Text consists of blanks and words. A less-than sign or a closing curly bracket
belongs to a word when a backslash stands before it; the backslash is then an
escape, which the span of the token covers and its text leaves out. Any other
backslash is an ordinary character.
-/

namespace TemplateLexer.Markup.Text

/-- The characters that a backslash can escape. -/
def isEscapable (c : Char) : Bool := c == '<' || c == '}'

/-- Writes a text so that no character of it is taken for markup. -/
def escape (text : List Char) : List Char :=
  text.flatMap fun c => if isEscapable c then ['\\', c] else [c]

/-- Removes the backslash of every escape, read from left to right. -/
def unescape : List Char → List Char
  | [] => []
  | [c] => [c]
  | c :: next :: rest =>
    if c == '\\' && isEscapable next then next :: unescape rest
    else c :: unescape (next :: rest)

/-- Reading an escaped text gives the text back. -/
theorem unescape_escape (text : List Char) : unescape (escape text) = text := by
  induction text with
  | nil => rfl
  | cons c rest ih =>
      have hcons : escape (c :: rest) =
          (if isEscapable c then ['\\', c] else [c]) ++ escape rest := rfl
      by_cases hc : isEscapable c
      · simp [hcons, hc, unescape, ih]
      · rw [hcons, if_neg hc, List.singleton_append]
        cases rest with
        | nil => rfl
        | cons next rest =>
            by_cases hnext : isEscapable next
            · have hescaped : escape (next :: rest) = '\\' :: next :: escape rest := by
                simp [escape, hnext]
              rw [hescaped] at ih ⊢
              simp only [unescape, show isEscapable '\\' = false by decide] at ih ⊢
              simpa using ih
            · have hescaped : escape (next :: rest) = next :: escape rest := by
                simp [escape, hnext]
              rw [hescaped] at ih ⊢
              simp only [unescape, hnext]
              simpa using ih

/-- The lexeme of a word. -/
def wordLexeme (word : List Char) : Lexeme :=
  { kind := .text, source := word, text := unescape word }

/-- The lexemes of a piece of text: each blank by itself, and the characters
between blanks as words. -/
def lexemes : List Char → List Lexeme
  | [] => []
  | c :: rest =>
    if isBlank c then
      .blank c :: lexemes rest
    else
      wordLexeme (c :: rest.takeWhile (!isBlank ·)) :: lexemes (rest.dropWhile (!isBlank ·))
termination_by text => text.length
decreasing_by
  · simp
  · exact Nat.lt_succ_of_le (List.dropWhile_sublist _).length_le

/-- Whether a word ends before the character `c` that stands before `rest`: at a
blank, a tag, an interpolation, and at a closing curly bracket where that has a
meaning. -/
def endsWord (closes : Bool) (c : Char) (rest : List Char) : Bool :=
  isBlank c || c == '<' || c == '}' && closes || c == '{' && rest.head? == some '{'

/-- The length of the word at the beginning of a text. A word does not end at an
escaped character. -/
def wordLength (closes : Bool) : List Char → Nat
  | [] => 0
  | '\\' :: c :: rest =>
    if isEscapable c then wordLength closes rest + 2 else wordLength closes (c :: rest) + 1
  | c :: rest => if endsWord closes c rest then 0 else wordLength closes rest + 1

/-- A text that does not begin with the end of a word begins with a word. -/
theorem wordLength_pos {closes : Bool} {c : Char} {rest : List Char}
    (h : endsWord closes c rest = false) : 0 < wordLength closes (c :: rest) := by
  unfold wordLength
  split
  · contradiction
  · split <;> omega
  next heq =>
    obtain ⟨rfl, rfl⟩ := List.cons.inj heq
    simp [h]

end TemplateLexer.Markup.Text
