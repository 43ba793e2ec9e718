import TemplateLexer.Span

/-! # Pending spans

A span whose ends become known at different times is recorded end by end and cut
out of the text once both are there. Each recorded pair is cut at most once.
-/

namespace TemplateLexer.Span

/-- The ends recorded so far. -/
structure Pending where
  start? : Option Nat := none
  stop? : Option Nat := none
deriving DecidableEq

namespace Pending

/-- The ways to misuse a pending span. -/
inductive Misuse where
  /-- A span cannot stop before the first character. -/
  | zeroStop
  | missingStart
  | missingStop
deriving DecidableEq

/-- How a misuse is described. -/
def Misuse.message : Misuse → String
  | .zeroStop => "end-exclusive cannot be zero"
  | .missingStart => "cannot build a substring without a determined start"
  | .missingStop => "cannot build a substring without a determined end"

/-- What comes of cutting a pending span out of a text. -/
inductive Cut where
  | piece (text : List Char)
  | refused (misuse : Misuse)
  /-- The span reaches beyond the text. -/
  | outside
deriving DecidableEq

/-- Whether a start is recorded. -/
def hasStart (pending : Pending) : Bool := pending.start?.isSome

/-- Records a start. Whatever was recorded before belongs to another span and is
forgotten. -/
def setStart (_pending : Pending) (start : Nat) : Pending :=
  { start? := some start }

/-- Records a stop, which must leave room for a character before it. -/
def setStop (pending : Pending) (stop : Nat) : Except Misuse Pending :=
  if stop = 0 then .error .zeroStop else .ok { pending with stop? := some stop }

/-- Cuts the recorded span out of a text and forgets its ends. A stop before the
start counts as the start. With an end missing, nothing is cut or forgotten. -/
def cut (pending : Pending) (text : List Char) : Cut × Pending :=
  match pending.start?, pending.stop? with
  | none, _ => (.refused .missingStart, pending)
  | some _, none => (.refused .missingStop, pending)
  | some start, some stop =>
    let span : Span := ⟨start, max start stop⟩
    (if span.stop ≤ text.length then .piece (span.cut text) else .outside, {})

end Pending

end TemplateLexer.Span
