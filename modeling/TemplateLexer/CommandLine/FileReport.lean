import TemplateLexer.CommandLine.Invocation
import TemplateLexer.Highlight
import TemplateLexer.Report.Quoted

/-! # Reports on files

Each command has a form in which it reports on the text of a file, and all share
the form for a file that has no text. The lists of tokens and styles go to the
one stream and everything that is said about the file as a whole to the other.
-/

namespace TemplateLexer.CommandLine

/-- Why a file has no text. -/
inductive ReadError where
  /-- The system refuses to read it, for a reason that has a number. -/
  | refused (reason : String) (number : Nat)
  /-- Its bytes are not UTF-8. -/
  | notText

/-- How a file without a text is described. -/
def ReadError.message : ReadError → String
  | .refused reason number => s!"{reason} (os error {number})"
  | .notText => "stream did not contain valid UTF-8"

/-- The text that the bytes of a file encode. -/
def decode (bytes : ByteArray) : Except ReadError String :=
  match String.fromUTF8? bytes with
  | some text => .ok text
  | none => .error .notText

/-- What is printed on the two streams about a file, and whether it could not be
read or is not well formed. -/
structure FileReport where
  stdout : String := ""
  stderr : String := ""
  failed : Bool := false
deriving DecidableEq

namespace FileReport

/-- The line of a token. -/
def tokenLine (token : Token) : String :=
  let place := s!"{token.span.start}..{token.span.stop}"
  s!"{place}\t{token.kind.name}\t{Report.Quoted.encode token.text}\n"

/-- The line of a styled range. -/
def rangeLine (range : StyledRange) : String :=
  let className := match range.style with
    | none => "-"
    | some style => style.cssClass
  s!"{range.span.start}..{range.span.stop}\t{className}\n"

/-- Where a file is not well formed, in few words. -/
def errorSummary (path : String) (error : LexError) : String :=
  s!"{path}: {error.cause.code} at position {error.position}"

/-- The report of the tokens of a file. -/
def tokens (options : Options) (path text : String) : FileReport :=
  let lexed := lex options text
  { stdout := String.join (lexed.tokens.map tokenLine)
    stderr := match lexed.error with
      | none => ""
      | some error => s!"{errorSummary path error}\n"
    failed := !lexed.isOk }

/-- The report on whether a file is well formed. -/
def check (options : Options) (path text : String) : FileReport :=
  let lexed := lex options text
  { stderr := match lexed.error with
      | none => s!"{path}: ok ({lexed.tokens.length} tokens)\n"
      | some error => s!"{errorSummary path error} ({error.message})\n"
    failed := !lexed.isOk }

/-- The report of the styles of a file. -/
def styles (options : Options) (path text : String) : FileReport :=
  let highlighted := highlight options text
  { stdout := String.join (highlighted.ranges.map rangeLine)
    stderr := match highlighted.error with
      | none => ""
      | some error => s!"{path}: {error.message}\n"
    failed := highlighted.error.isSome }

/-- The report on a file that cannot be read. -/
def unreadable (path : String) (error : ReadError) : FileReport :=
  { stderr := s!"{path}: {error.message}\n", failed := true }

/-- The report of a command on a text. -/
def ofText (command : Command) (options : Options) (path text : String) : FileReport :=
  match command with
  | .tokens => tokens options path text
  | .check => check options path text
  | .styles => styles options path text

end FileReport

end TemplateLexer.CommandLine
