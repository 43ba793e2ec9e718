/-! # Quotes

The two characters that delimit strings.
-/

namespace TemplateLexer

/-- A string is delimited by two single or by two double quotes. -/
inductive Quote where
  | single
  | double
deriving DecidableEq

/-- The quote that a character is, if it is one. -/
def Quote.ofChar? (c : Char) : Option Quote :=
  if c == '\'' then some .single else if c == '"' then some .double else none

end TemplateLexer
