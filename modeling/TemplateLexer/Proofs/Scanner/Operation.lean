import TemplateLexer.Lex
import TemplateLexer.Reader

/-! # Scanners

A scanner reads a text step by step, from a position that it moves, with a pending
span that its parts share, and writes tokens to a stream. Whatever an operation
takes for granted about positions, spans and shifts is checked, and it is a fault
if it does not hold.
-/

namespace TemplateLexer

/-- What a scanner works on. -/
structure Scanner where
  reader : Reader
  pending : Span.Pending := {}
  nesting : Quote.Nesting := {}
  stream : TokenStream := {}

namespace Scanner

/-- The mistakes that a scanner can make on its own. -/
inductive Fault where
  /-- A piece is cut that ends before it starts. -/
  | reversed
  /-- A piece is cut that reaches beyond the text. -/
  | outside
  /-- The position before the first one is needed. -/
  | beforeStart
  /-- A character is needed that the text does not have. -/
  | noCharacter
  /-- The reader is moved to a position beyond the text. -/
  | rewoundTooFar
  /-- A word is shifted by its width or more. -/
  | shiftedTooFar
  /-- A part begins with a span pending that it does not know of. -/
  | spanPending
deriving DecidableEq

/-- Why a scanner stops. -/
inductive Stop where
  | refused (error : LexError)
  | faulted (fault : Fault)
deriving DecidableEq

/-- A program that a scanner runs. It may run forever, for all that is known of it
beforehand. -/
abbrev Scan := ExceptT Stop (StateT Scanner Option)

namespace Scan

/-- Stops with a fault unless a condition holds. -/
def check (condition : Bool) (fault : Fault) : Scan Unit :=
  if condition then pure () else throw (.faulted fault)

/-- Refuses the text, because of what stands at a position. -/
def refuse {α : Type} (cause : LexError.Cause) (position : Nat) : Scan α :=
  throw (.refused { cause, position })

/-- What a step of a loop comes to: a state to go on from, or the result of the loop. -/
inductive Progress (σ α : Type) where
  | again (state : σ)
  | done (result : α)

/-- Goes on from what a program comes to with one step after the other, until there is a
result. There may never be one. -/
def thenLoop {σ α : Type} (program : Scan (Progress σ α)) (step : σ → Scan (Progress σ α)) :
    Scan α := do
  match ← program with
  | .again state => step state |>.thenLoop step
  | .done result => return result
partial_fixpoint

/-- Takes one step after the other from a state on. -/
def loop {σ α : Type} (step : σ → Scan (Progress σ α)) (state : σ) : Scan α :=
  (step state).thenLoop step

/-- Looks at the scanner without changing it. -/
def look {α : Type} (f : Scanner → α) : Scan α :=
  ExceptT.mk fun scanner => some (.ok (f scanner), scanner)

/-- Changes the scanner. -/
def change (f : Scanner → Scanner) : Scan Unit :=
  ExceptT.mk fun scanner => some (.ok (), f scanner)

/-- Moves the reader, and has what it reads. -/
def read {α : Type} (f : Reader → α × Reader) : Scan α :=
  ExceptT.mk fun scanner =>
    let (result, reader) := f scanner.reader
    some (.ok result, { scanner with reader })

section Reading

def position : Scan Nat := look fun scanner => scanner.reader.position

def atEnd : Scan Bool := look fun scanner => scanner.reader.atEnd

def peek? : Scan (Option Char) := look fun scanner => scanner.reader.peek?

def peekAt? (offset : Nat) : Scan (Option Char) := look fun scanner => scanner.reader.peekAt? offset

def startsWith (literal : List Char) : Scan Bool :=
  look fun scanner => scanner.reader.startsWith literal

def next? : Scan (Option Char) := read Reader.next?

def takeBlanks : Scan (List Char) := read Reader.takeBlanks

def skip (count : Nat) : Scan Unit := read fun reader => ((), reader.skip count)

def skipWhile (p : Char → Bool) : Scan Unit := read fun reader => ((), reader.skipWhile p)

/-- The characters between two positions. -/
def slice (start stop : Nat) : Scan (List Char) :=
  look fun scanner => scanner.reader.slice ⟨start, stop⟩

/-- Moves back to a position. -/
def rewind (position : Nat) : Scan Unit := do
  let length ← look fun scanner => scanner.reader.text.length
  check (position ≤ length) .rewoundTooFar
  read fun reader => ((), reader.rewind position)

/-- The position before this one. -/
def previousPosition : Scan Nat := do
  let position ← position
  check (position != 0) .beforeStart
  return position - 1

/-- The character at a position. -/
def characterAt (position : Nat) : Scan Char := do
  match ← look fun scanner => scanner.reader.text[position]? with
  | some c => return c
  | none => throw (.faulted .noCharacter)

end Reading

section Spans

def hasStart : Scan Bool := look fun scanner => scanner.pending.hasStart

def setStart (start : Nat) : Scan Unit :=
  change fun scanner => { scanner with pending := scanner.pending.setStart start }

/-- Records the stop of the pending span. -/
def setStop (stop : Nat) : Scan Unit := do
  match ← look fun scanner => scanner.pending.setStop stop with
  | .ok pending => change fun scanner => { scanner with pending }
  | .error misuse => refuse (.invalidSpan misuse) stop

/-- Cuts the pending span out of the text. Its stop must not lie before its start. -/
def cut : Scan (List Char) := do
  let pending ← look fun scanner => scanner.pending
  match pending.start?, pending.stop? with
  | some start, some stop => check (start ≤ stop) .reversed
  | _, _ => pure ()
  let (piece, cleared) ← look fun scanner => scanner.pending.cut scanner.reader.text
  change fun scanner => { scanner with pending := cleared }
  match piece with
  | .piece text => return text
  | .refused misuse => refuse (.invalidSpan misuse) (← position)
  | .outside => throw (.faulted .outside)

/-- Begins a part of the program that no pending span may reach into. -/
def enter : Scan Unit := do
  let pending ← look fun scanner => scanner.pending
  check (pending == {}) .spanPending

end Spans

/-- The shifts that reading a character takes: one to see the quote of the innermost
string, and one to record the quote of a new one. -/
def shifts (nesting : Quote.Nesting) (c : Char) : List Nat :=
  match Quote.ofChar? c with
  | none => []
  | some quote =>
    (if nesting.depth = 0 then [] else [nesting.depth - 1]) ++
      (if nesting.innermost? = some quote ∨ nesting.depth = Quote.Nesting.limit then []
      else [nesting.depth])

/-- Reads a character of the body of an interpolation. -/
def readNested (c : Char) (position : Nat) : Scan Unit := do
  let nesting ← look fun scanner => scanner.nesting
  check ((shifts nesting c).all (· < 64)) .shiftedTooFar
  match nesting.read c with
  | some nesting => change fun scanner => { scanner with nesting }
  | none => refuse .quoteDepthExceeded position

/-- Writes lexemes to the stream. -/
def write (lexemes : List Lexeme) : Scan Unit :=
  change fun scanner => { scanner with stream := scanner.stream.append lexemes }

/-- Writes a fragment that stands for nothing but itself. -/
def emit (fragment : Markup.Fragment) : Scan Unit := write fragment.lexemes

end Scan

end Scanner

end TemplateLexer
