import TemplateLexer.Proofs.Tiling
import TemplateLexer.Reader

/-! # Operations of a reader

A caller reads, looks ahead, skips and rewinds in any order. As long as it rewinds to positions of
the text only, the reader stays in the text, and goes back only when it is told to. What an
operation does is told of the text and of the two positions in front of the operation and behind
it, without a look at how the reader moves.

Positions and counts are machine words. A caller may count with any of them, and the reader stays
in the text even when the sum with its position is too large for a word; where an operation leads
is told of all other sums.
-/

namespace TemplateLexer.Reader

/-- What a reader can be asked to do. The first five are questions, which do not move it. -/
inductive Operation where
  | atEnd
  | peek
  | peekAt (offset : Nat)
  | startsWith (literal : List Char)
  | slice (span : Span)
  | next
  | takeBlanks
  | skip (count : Nat)
  | skipWhile (p : Char → Bool)
  | rewind (position : Nat)

/-- What the caller learns from an operation. -/
inductive Answer where
  | moved
  | truth (holds : Bool)
  | character (c : Option Char)
  | characters (run : List Char)
deriving DecidableEq

/-- The answer to an operation, and the reader behind it. -/
def perform (reader : Reader) : Operation → Answer × Reader
  | .atEnd => (.truth reader.atEnd, reader)
  | .peek => (.character reader.peek?, reader)
  | .peekAt offset => (.character (reader.peekAt? offset), reader)
  | .startsWith literal => (.truth (reader.startsWith literal), reader)
  | .slice span => (.characters (reader.slice span), reader)
  | .next => (.character reader.next?.1, reader.next?.2)
  | .takeBlanks => (.characters reader.takeBlanks.1, reader.takeBlanks.2)
  | .skip count => (.moved, reader.skip count)
  | .skipWhile p => (.moved, reader.skipWhile p)
  | .rewind position => (.moved, reader.rewind position)

/-- The reader behind a sequence of operations. -/
def after (reader : Reader) (operations : List Operation) : Reader :=
  operations.foldl (fun reader operation => (reader.perform operation).2) reader

/-- An operation that rewinds does so to a position of the text. -/
def Operation.StaysIn (text : List Char) : Operation → Prop
  | .rewind position => position ≤ text.length
  | _ => True

def Operation.IsRewind : Operation → Prop
  | .rewind _ => True
  | _ => False

/-- What an operation counts is in the lower half of the machine words, or leads to a position that
is a word again. Any other sum is no position: a machine that checks its sums stops there, and one
that does not goes on from the remainder. -/
def Operation.Fits (position : Nat) : Operation → Prop
  | .peekAt count | .skip count => 2 * count < UInt64.size ∨ position + count < UInt64.size
  | _ => True

/-- The characters between two positions are of a class, and the one behind them is not. -/
structure IsMaximalRun (p : Char → Bool) (text : List Char) (start stop : Nat) : Prop where
  start_le : start ≤ stop
  stop_le : stop ≤ text.length
  forall_mem : ∀ c ∈ Span.cut ⟨start, stop⟩ text, p c
  stops : ∀ c ∈ text[stop]?, p c = false

section Moves

variable (reader : Reader)

theorem next?_fst : reader.next?.1 = reader.peek? := by
  rw [next?]
  cases reader.peek? <;> rfl

theorem next?_snd :
    reader.next?.2 = { reader with position := reader.position + reader.peek?.toList.length } := by
  rw [next?]
  cases reader.peek? <;> rfl

theorem skipWhile_position {p : Char → Bool} {run rest : List Char}
    (hsplit : reader.unread = run ++ rest) (hrun : ∀ c ∈ run, p c) (hrest : Stops p rest) :
    (reader.skipWhile p).position = reader.position + run.length := by
  rw [skipWhile, hsplit, takeWhile_append_of_stops hrun hrest]

/-- No operation changes the text. -/
theorem text_perform (operation : Operation) :
    (reader.perform operation).2.text = reader.text := by
  cases operation with
  | next => rw [perform, next?_snd]
  | _ => rfl

end Moves

/-- A reader stands at a position of a text. -/
structure Within (text : List Char) (reader : Reader) : Prop where
  text_eq : reader.text = text
  position_le : reader.position ≤ text.length

namespace Within

variable {text : List Char} {reader : Reader} {operation : Operation}

theorem start (text : List Char) : Within text { text } := ⟨rfl, Nat.zero_le _⟩

theorem unread_eq (h : Within text reader) : reader.unread = text.drop reader.position := by
  rw [unread, h.text_eq]

theorem peek?_eq (h : Within text reader) : reader.peek? = text[reader.position]? := by
  rw [peek?, h.text_eq]

theorem peek?_eq_none_iff (h : Within text reader) :
    reader.peek? = none ↔ reader.position = text.length := by
  rw [h.peek?_eq, List.getElem?_eq_none_iff]
  exact ⟨Nat.le_antisymm h.position_le, Nat.le_of_eq ∘ Eq.symm⟩

theorem atEnd_iff (h : Within text reader) : reader.atEnd ↔ reader.position = text.length := by
  rw [atEnd, decide_eq_true_iff, h.text_eq]
  exact ⟨Nat.le_antisymm h.position_le, Nat.le_of_eq ∘ Eq.symm⟩

/-- What comes next ends in the text. -/
theorem add_length_le (h : Within text reader) {run rest : List Char}
    (hdrop : text.drop reader.position = run ++ rest) :
    reader.position + run.length ≤ text.length := by
  have hlength := congrArg List.length hdrop
  have hbound := h.position_le
  rw [List.length_drop, List.length_append] at hlength
  omega

/-- What stands next is the next character, if there is one, and all behind it. -/
theorem drop_eq (h : Within text reader) :
    text.drop reader.position = reader.peek?.toList ++ text.drop (reader.position + 1) := by
  rw [h.peek?_eq]
  exact List.drop_eq_getElem?_toList_append

/-- What is skipped of a class is the longest run of it. -/
theorem skipWhile_eq (h : Within text reader) (p : Char → Bool) :
    reader.unread.takeWhile p =
        Span.cut ⟨reader.position, (reader.skipWhile p).position⟩ text ∧
      IsMaximalRun p text reader.position (reader.skipWhile p).position := by
  obtain ⟨run, rest, hsplit, hrun, hrest⟩ := exists_maximalRun p reader.unread
  have hdrop : text.drop reader.position = run ++ rest := h.unread_eq ▸ hsplit
  have hcut := Span.cut_of_drop hdrop
  rw [reader.skipWhile_position hsplit hrun hrest, hcut, hsplit,
    takeWhile_append_of_stops hrun hrest]
  refine ⟨rfl, Nat.le_add_right _ _, h.add_length_le hdrop, ?_, ?_⟩
  · rwa [hcut]
  · intro c hc
    apply hrest
    rwa [← drop_add_length hdrop, List.head?_drop]

/-- No operation leaves the text, unless it rewinds beyond it. -/
theorem perform (h : Within text reader) (hstays : operation.StaysIn text) :
    Within text (reader.perform operation).2 := by
  refine ⟨(reader.text_perform operation).trans h.text_eq, ?_⟩
  cases operation with
  | next =>
      rw [Reader.perform, next?_snd]
      exact h.add_length_le h.drop_eq
  | takeBlanks => exact (h.skipWhile_eq isBlank).2.stop_le
  | skip count =>
      -- Whatever the sum of position and count is, it is cut off at the end of the text.
      rw [← h.text_eq]
      exact Nat.min_le_right _ _
  | skipWhile p => exact (h.skipWhile_eq p).2.stop_le
  | rewind position => exact hstays
  | _ => exact h.position_le

theorem after (h : Within text reader) {operations : List Operation}
    (hstays : ∀ operation ∈ operations, operation.StaysIn text) :
    Within text (reader.after operations) := by
  induction operations generalizing reader with
  | nil => exact h
  | cons operation rest ih =>
      obtain ⟨hfirst, hrest⟩ := List.forall_mem_cons.mp hstays
      exact ih (h.perform hfirst) hrest

/-- Only rewinding takes a reader back. -/
theorem position_le_perform (h : Within text reader) (hfits : operation.Fits reader.position)
    (hforward : ¬ operation.IsRewind) :
    reader.position ≤ (reader.perform operation).2.position := by
  cases operation with
  | next =>
      rw [Reader.perform, next?_snd]
      exact Nat.le_add_right _ _
  | takeBlanks => exact Nat.le_add_right _ _
  | skip count =>
      rw [Reader.perform, skip, countFrom_eq_add hfits]
      exact Nat.le_min.mpr ⟨Nat.le_add_right _ _, h.text_eq ▸ h.position_le⟩
  | skipWhile p => exact Nat.le_add_right _ _
  | rewind position => exact absurd trivial hforward
  | _ => exact Nat.le_refl _

end Within

end TemplateLexer.Reader
