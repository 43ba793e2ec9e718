/-! # Comments

A comment reads like an opening tag named `!--` and ends at the first `-->` after
that name. Without such an end it is an ordinary tag.
-/

namespace TemplateLexer.Markup.Comment

/-- The name that a comment has when it is read as a tag. -/
def tagName : List Char := ['!', '-', '-']

/-- What ends a comment. -/
def terminator : List Char := ['-', '-', '>']

/-- The length of a text through the first terminator in it. -/
def lengthThroughEnd? : List Char → Option Nat
  | [] => none
  | c :: rest =>
    if terminator.isPrefixOf (c :: rest) then some terminator.length
    else (lengthThroughEnd? rest).map (· + 1)

/-- How much of the text after the name of an opening tag makes a comment of it. -/
def tail? (name rest : List Char) : Option Nat :=
  if name = tagName then lengthThroughEnd? rest else none

end TemplateLexer.Markup.Comment
