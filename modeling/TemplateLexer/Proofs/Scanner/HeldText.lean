import TemplateLexer.Proofs.Scanner.Accord
import TemplateLexer.Proofs.Scanner.MarkupRun

/-! # Text that is held back

A scanner writes the text between two tags at once, while a run reads it word by
word. What is held back consists of words that the run has read and of a part of a
word, which ends where the text is written at last.
-/

namespace TemplateLexer

namespace Markup.Text

theorem lexemes_blanks {blanks : List Char} (hblanks : AllBlank blanks) (rest : List Char) :
    lexemes (blanks ++ rest) = blanks.map Lexeme.blank ++ lexemes rest := by
  induction blanks with
  | nil => rfl
  | cons c tail ih =>
      rw [List.cons_append, lexemes, if_pos (hblanks c List.mem_cons_self),
        ih fun d hd => hblanks d (List.mem_cons_of_mem _ hd)]
      rfl

/-- A word ends before a blank. -/
theorem lexemes_append_blank {part : List Char} (hpart : ∀ c ∈ part, isBlank c = false) {c : Char}
    (hc : isBlank c) (rest : List Char) :
    lexemes (part ++ c :: rest) = lexemes part ++ lexemes (c :: rest) := by
  cases part with
  | nil => simp [lexemes]
  | cons d tail =>
      have htail : ∀ e ∈ tail, (!isBlank e) = true := fun e he => by
        rw [hpart e (List.mem_cons_of_mem _ he)]
        rfl
      have hstops : Stops (!isBlank ·) (c :: rest) := stops_cons.mpr (by simp [hc])
      have hword : lexemes (d :: tail) = [wordLexeme (d :: tail)] :=
        lexemes_of_word (List.cons_ne_nil _ _) hpart
      have hd : ¬ isBlank d := by simp [hpart d List.mem_cons_self]
      rw [hword, List.cons_append, lexemes, if_neg hd, takeWhile_append_of_stops htail hstops,
        dropWhile_append_of_stops htail hstops]
      rfl

end Markup.Text

namespace Scanner

open TemplateLexer.Markup

variable {lenient : Bool} {input raw unread rest : List Char} {depth : Nat}
  {nesting : Quote.Nesting} {stream : TokenStream}

/-- The run has read the text that is held back, except for a part of a word at its
end that may go on. -/
def Held (lenient : Bool) (input : List Char) (depth : Nat) (raw unread : List Char)
    (stream : TokenStream) : Prop :=
  raw ++ unread <:+ input ∧ ∃ lexemes part,
    Reached lenient input (.content depth) (part ++ unread) (stream.append lexemes) ∧
      (∀ rest, Text.lexemes (raw ++ rest) = lexemes ++ Text.lexemes (part ++ rest)) ∧
      (∀ c ∈ part, isBlank c = false) ∧
      Text.wordLength (Step.curlyCloses lenient depth) (part ++ unread) =
        part.length + Text.wordLength (Step.curlyCloses lenient depth) unread

namespace Held

theorem start (h : Reached lenient input (.content depth) unread stream) :
    Held lenient input depth [] unread stream := by
  refine ⟨h.1, [], [], ?_, fun _ => rfl, nofun, (Nat.zero_add _).symm⟩
  rwa [TokenStream.append_nil]

/-- Where no word goes on, the run has read all of the text. -/
theorem flush (h : Held lenient input depth raw unread stream)
    (hends : Text.wordLength (Step.curlyCloses lenient depth) unread = 0) :
    Reached lenient input (.content depth) unread (stream.append (Text.lexemes raw)) := by
  obtain ⟨_, lexemes, part, hreached, hlexemes, hpart, hlength⟩ := h
  have hraw := hlexemes []
  rw [List.append_nil, List.append_nil] at hraw
  rw [hraw, TokenStream.append_append]
  rw [hends, Nat.add_zero] at hlength
  -- What is left of the text is the part of a word, and this is a word unless it is empty.
  by_cases hne : part = []
  · subst hne
    have hnil : Text.lexemes [] = [] := by rw [Text.lexemes]
    rwa [hnil, TokenStream.append_nil]
  · exact hreached.advance (.word hne hlength)

/-- A part of a word is held back with the word that it goes on. -/
theorem append_part {piece : List Char} (h : Held lenient input depth raw (piece ++ rest) stream)
    (hpiece : ∀ c ∈ piece, isBlank c = false)
    (hlength : Text.wordLength (Step.curlyCloses lenient depth) (piece ++ rest) =
      piece.length + Text.wordLength (Step.curlyCloses lenient depth) rest) :
    Held lenient input depth (raw ++ piece) rest stream := by
  obtain ⟨hsuffix, lexemes, part, hreached, hlexemes, hpart, hword⟩ := h
  refine ⟨by rwa [List.append_assoc], lexemes, part ++ piece, ?_, fun rest => ?_, ?_, ?_⟩
  · rwa [List.append_assoc]
  · rw [List.append_assoc, List.append_assoc]
    exact hlexemes _
  · intro c hc
    rcases List.mem_append.mp hc with hc | hc
    · exact hpart c hc
    · exact hpiece c hc
  · rw [List.append_assoc, hword, hlength, List.length_append, Nat.add_assoc]

/-- Blanks end the word before them. -/
theorem append_blanks {blanks : List Char}
    (h : Held lenient input depth raw (blanks ++ rest) stream) (hblanks : AllBlank blanks) :
    Held lenient input depth (raw ++ blanks) rest stream := by
  cases blanks with
  | nil => rwa [List.append_nil]
  | cons c tail =>
      have hc : isBlank c := hblanks c List.mem_cons_self
      have hends : Text.wordLength (Step.curlyCloses lenient depth) (c :: (tail ++ rest)) = 0 :=
        Text.wordLength_eq_zero_iff.mpr (by simp [Text.endsWord, hc])
      -- The run reads the word before the blanks, and then the blanks.
      have hflushed := (h.flush hends).blanks hblanks
      obtain ⟨hsuffix, lexemes, part, _, hlexemes, hpart, _⟩ := h
      have hraw := hlexemes []
      rw [List.append_nil, List.append_nil] at hraw
      refine ⟨by rwa [List.append_assoc], Text.lexemes raw ++ (c :: tail).map Lexeme.blank, [],
        ?_, fun rest => ?_, by simp, (Nat.zero_add _).symm⟩
      · rw [TokenStream.append_append]
        exact hflushed
      · rw [List.append_assoc, hlexemes, List.cons_append, Text.lexemes_append_blank hpart hc,
          ← List.cons_append, Text.lexemes_blanks hblanks, hraw]
        simp only [List.append_assoc, List.nil_append]

end Held

/-- The span of the text that is held back. -/
def heldSpan (input raw unread : List Char) : Span.Pending :=
  if raw.isEmpty then {} else { start? := some (input.length - (raw ++ unread).length) }

/-- What is held back is written where it ends, wherever the reader stands. -/
theorem runs_flushText {ahead : List Char} (h : raw ++ unread <:+ input) :
    Runs (Markup.flushText (input.length - unread.length))
      (facing input ahead (heldSpan input raw unread) nesting stream) (.ok ())
      (facing input ahead {} nesting (stream.append (Text.lexemes raw))) := by
  cases raw with
  | nil =>
      rw [Text.lexemes, TokenStream.append_nil]
      exact .bind Scan.runs_hasStart (.pure ())
  | cons c tail =>
      refine .bind Scan.runs_hasStart (.bind (Scan.runs_setStop ?_) ?_)
      · exact Markup.position_pos h (List.cons_ne_nil _ _)
      · exact .bind (Scan.runs_cut h) (Scan.runs_emit _)

theorem heldSpan_of_ne_nil (hne : raw ≠ []) :
    heldSpan input raw unread = { start? := some (input.length - (raw ++ unread).length) } := by
  rw [heldSpan, if_neg (by simpa using hne)]

theorem runs_holdText :
    Runs (Markup.holdText (input.length - unread.length))
      (facing input unread (heldSpan input raw unread) nesting stream) (.ok ())
      (facing input unread { start? := some (input.length - (raw ++ unread).length) } nesting
        stream) := by
  cases raw with
  | nil => exact .bind Scan.runs_hasStart (Scan.runs_setStart _)
  | cons c tail => exact .bind Scan.runs_hasStart (.pure ())

/-- A piece of text that can be held back with what is held back before it. -/
def Extends (lenient : Bool) (input : List Char) (depth : Nat) (piece rest : List Char) : Prop :=
  ∀ raw stream, Held lenient input depth raw (piece ++ rest) stream →
    Held lenient input depth (raw ++ piece) rest stream

theorem extends_plain {c : Char} (hc : c ≠ '\\')
    (hends : Text.endsWord (Step.curlyCloses lenient depth) c rest = false) :
    Extends lenient input depth [c] rest := by
  intro raw stream hheld
  apply hheld.append_part
  · simp only [Text.endsWord, Bool.or_eq_false_iff] at hends
    simpa using hends.1.1.1
  · rw [List.singleton_append, Text.wordLength_plain hc hends, Nat.add_comm]
    rfl

theorem extends_backslash (hrest : ∀ c ∈ rest.head?, Text.isEscapable c = false) :
    Extends lenient input depth ['\\'] rest := by
  intro raw stream hheld
  apply hheld.append_part (by simp [show isBlank '\\' = false by decide])
  rw [List.singleton_append, Text.wordLength_backslash hrest, Nat.add_comm]
  rfl

theorem extends_escape {c : Char} (hc : Text.isEscapable c) :
    Extends lenient input depth ['\\', c] rest := by
  intro raw stream hheld
  apply hheld.append_part
  · have hblank : isBlank c = false := by
      simp only [Text.isEscapable, Bool.or_eq_true, beq_iff_eq] at hc
      rcases hc with rfl | rfl <;> decide
    simp [show isBlank '\\' = false by decide, hblank]
  · rw [List.cons_append, List.singleton_append, Text.wordLength_escaped hc, Nat.add_comm]
    rfl

theorem runs_takeText_of_ne {c : Char} (h : c :: rest <:+ input) (hc : c ≠ '\\')
    {pending : Span.Pending} :
    Runs Markup.takeText (facing input (c :: rest) pending nesting stream) (.ok ())
      (facing input rest pending nesting stream) := by
  have hrest : rest <:+ input := (List.suffix_cons _ _).trans h
  refine .bind (Scan.runs_next? h) (.bind (Scan.runs_peek? hrest) ?_)
  rw [if_neg (by simp [hc])]
  exact .pure ()

/-- What is read as text can be held back, unless a word ends before it. -/
theorem exists_runs_takeText {c : Char} (h : c :: rest <:+ input) (pending : Span.Pending)
    (htext : isBlank c ∨ Text.endsWord (Step.curlyCloses lenient depth) c rest = false) :
    ∃ piece after, c :: rest = piece ++ after ∧ piece ≠ [] ∧
      Extends lenient input depth piece after ∧
      Runs Markup.takeText (facing input (c :: rest) pending nesting stream) (.ok ())
        (facing input after pending nesting stream) := by
  by_cases hbackslash : c = '\\'
  · subst hbackslash
    have hrest : rest <:+ input := (List.suffix_cons _ _).trans h
    by_cases hescapes : rest.head?.any Text.isEscapable
    · obtain ⟨d, hd, hescapable⟩ := (Option.any_eq_true _ _).mp hescapes
      obtain ⟨after, rfl⟩ := List.head?_eq_some_iff.mp hd
      refine ⟨['\\', d], after, rfl, List.cons_ne_nil _ _, extends_escape hescapable, ?_⟩
      refine .bind (Scan.runs_next? h) (.bind (Scan.runs_peek? hrest) ?_)
      rw [if_pos (by simpa using hescapable)]
      exact (Scan.runs_next? hrest).discard
    · refine ⟨['\\'], rest, rfl, List.cons_ne_nil _ _, extends_backslash ?_, ?_⟩
      · intro d hd
        rw [Option.mem_def.mp hd] at hescapes
        simpa using hescapes
      · refine .bind (Scan.runs_next? h) (.bind (Scan.runs_peek? hrest) ?_)
        rw [if_neg (by simpa using hescapes)]
        exact .pure ()
  · refine ⟨[c], rest, rfl, List.cons_ne_nil _ _, ?_, runs_takeText_of_ne h hbackslash⟩
    rcases htext with hblank | hends
    · exact fun raw stream hheld => hheld.append_blanks (by simpa [AllBlank] using hblank)
    · exact extends_plain hbackslash hends

end Scanner

end TemplateLexer
