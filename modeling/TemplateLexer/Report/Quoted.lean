/-! # Quoted text

Reports show the text of a token between double quotes and on one line. Quotes,
backslashes and the characters that cannot be seen are written as escapes.
-/

namespace TemplateLexer.Report.Quoted

/-- The code points that show nothing by themselves, as closed ranges in
increasing order: controls, format characters, separators other than the space,
and private use. Marks that extend the character before them and code points
without a character show nothing by themselves either, and are left out of the
table; how a quoted text is read back does not depend on it. -/
def invisibleRanges : List (Nat × Nat) :=
  [(0x0000, 0x001F), (0x007F, 0x00A0), (0x00AD, 0x00AD), (0x0600, 0x0605), (0x061C, 0x061C),
    (0x06DD, 0x06DD), (0x070F, 0x070F), (0x0890, 0x0891), (0x08E2, 0x08E2), (0x1680, 0x1680),
    (0x180E, 0x180E), (0x2000, 0x200F), (0x2028, 0x202F), (0x205F, 0x2064), (0x2066, 0x206F),
    (0x3000, 0x3000), (0xE000, 0xF8FF), (0xFEFF, 0xFEFF), (0xFFF9, 0xFFFB),
    (0x110BD, 0x110BD), (0x110CD, 0x110CD), (0x13430, 0x1343F), (0x1BCA0, 0x1BCA3),
    (0x1D173, 0x1D17A), (0xE0001, 0xE0001), (0xE0020, 0xE007F), (0xF0000, 0xFFFFD),
    (0x100000, 0x10FFFD)]

/-- Whether a character shows nothing by itself. -/
def isInvisible (c : Char) : Bool :=
  invisibleRanges.any fun (first, last) => first ≤ c.toNat && c.toNat ≤ last

/-- The letter that stands for a character behind a backslash. -/
def shortEscape? (c : Char) : Option Char :=
  if c == '"' then some '"'
  else if c == '\\' then some '\\'
  else if c == '\t' then some 't'
  else if c == '\r' then some 'r'
  else if c == '\n' then some 'n'
  else if c == '\x00' then some '0'
  else none

/-- The code point of a character in lower-case hexadecimal digits, as an escape. -/
def codePointEscape (c : Char) : List Char :=
  ['\\', 'u', '{'] ++ Nat.toDigits 16 c.toNat ++ ['}']

/-- A character as it is written between the quotes. -/
def escape (c : Char) : List Char :=
  match shortEscape? c with
  | some letter => ['\\', letter]
  | none => if isInvisible c then codePointEscape c else [c]

/-- A text between quotes. -/
def encode (text : String) : String :=
  String.ofList ('"' :: text.toList.flatMap escape ++ ['"'])

/-- Quotes and invisible characters are escaped, and apostrophes are not. -/
example : encode "it's \"\t\u001b" = "\"it's \\\"\\t\\u\x7b1b\x7d\"" := by decide +kernel

end TemplateLexer.Report.Quoted
