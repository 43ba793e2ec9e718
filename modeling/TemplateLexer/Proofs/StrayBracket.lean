import Mathlib.Logic.Function.Iterate
import TemplateLexer.Proofs.Lenience

/-! # Escaping stray brackets

What a lenient run reads is what its author would have written with a backslash in
front of every stray bracket. The backslash lengthens one word by one character, and
changes neither what that word says nor anything else. A strict run on the escaped
text then comes to the next stray bracket, if there is one, so that escaping comes
to an end.
-/

namespace TemplateLexer

/-- An input with a backslash in front of the character at a position. -/
def escapeAt (position : Nat) (input : String) : String :=
  .ofList (input.toList.take position ++ '\\' :: input.toList.drop position)

/-- Escapes the bracket that a strict run refuses as stray, if it does. -/
def escapeStray (input : String) : String :=
  match (lex {} input).error with
  | some ⟨.unescapedClosingCurly, position⟩ => escapeAt position input
  | _ => input

/-- The span of the same characters when one more stands at a position. A span that ends there
does not cover it. -/
def Span.stretch (position : Nat) (span : Span) : Span :=
  ⟨if span.start ≤ position then span.start else span.start + 1,
    if span.stop ≤ position then span.stop else span.stop + 1⟩

/-- The token of the same characters when one more stands at a position. -/
def Token.stretch (position : Nat) (token : Token) : Token :=
  { token with span := token.span.stretch position }

section Stretching

variable {offset position : Nat} {lexemes : List Lexeme}

/-- The tokens in front of the position stay where they are. -/
theorem Lexeme.map_stretch_placeAll_of_le (h : offset + (sourceOf lexemes).length ≤ position) :
    (placeAll offset lexemes).map (Token.stretch position) = placeAll offset lexemes := by
  induction lexemes generalizing offset with
  | nil => rfl
  | cons lexeme rest ih =>
      rw [sourceOf_cons, List.length_append, ← Nat.add_assoc] at h
      have hstart : offset ≤ position := by omega
      have hstop : offset + lexeme.source.length ≤ position := by omega
      rw [placeAll]
      split
      next hempty =>
        rw [List.isEmpty_iff.mp hempty] at h
        exact ih h
      next =>
        rw [List.map_cons, ih h, Token.stretch, place, Span.stretch, if_pos hstart, if_pos hstop]

/-- The tokens behind the position are shifted by one. -/
theorem Lexeme.map_stretch_placeAll_of_lt (h : position < offset) :
    (placeAll offset lexemes).map (Token.stretch position) = placeAll (offset + 1) lexemes := by
  induction lexemes generalizing offset with
  | nil => rfl
  | cons lexeme rest ih =>
      have hstop : position < offset + lexeme.source.length := Nat.lt_add_right _ h
      rw [placeAll, placeAll]
      split
      next => exact ih h
      next =>
        rw [List.map_cons, ih hstop, Token.stretch, place, Span.stretch,
          if_neg (Nat.not_le_of_lt h), if_neg (Nat.not_le_of_lt hstop), place, Nat.add_right_comm]

end Stretching

namespace Markup.MeetsStray

variable {text word rest more behind : List Char} {before : List Fragment}

/-- The trace to the word is the same with the bracket escaped. -/
theorem trace_escaped (h : MeetsStray text before word rest) (lenient : Bool) :
    Trace lenient (.content 0) (Fragment.sourceOf before ++ (word ++ '\\' :: '}' :: rest)) before
      (.content 0) (word ++ '\\' :: '}' :: rest) := by
  have hcomment : ∀ between,
      Comment.lengthThroughEnd? (between ++ (word ++ '}' :: rest)) = none →
        Comment.lengthThroughEnd? (between ++ (word ++ '\\' :: '}' :: rest)) = none := by
    intro between hnone
    rw [← List.append_assoc] at hnone ⊢
    exact Comment.lengthThroughEnd?_insert (by decide) hnone
  by_cases hempty : word = []
  · exact (h.trace lenient).exchange_of_content (h.fresh hempty) fun _ => hcomment
  · obtain ⟨c, tail, rfl⟩ := List.exists_cons_of_ne_nil hempty
    refine (h.trace lenient).exchange (fun d hd => hd) (fun hnone => ?_) fun _ => hcomment
    -- A word begins there.
    have hlength : Text.wordLength (Step.curlyCloses lenient 0) (c :: tail ++ '}' :: rest) =
        (c :: tail).length + Text.wordLength (Step.curlyCloses lenient 0) ('}' :: rest) :=
      Text.wordLength_append h.held (fun _ => rfl) (.refl _)
    rw [BeginsNoWord, hlength, List.length_cons] at hnone
    omega

/-- With the bracket escaped, every run goes on with the word. -/
theorem reads_escaped (h : MeetsStray text before word (more ++ behind)) (lenient : Bool)
    (hmore : Text.wordLength (Step.curlyCloses lenient 0) (more ++ behind) = more.length) :
    Reads lenient (.content 0)
      (Fragment.sourceOf before ++ (word ++ '\\' :: '}' :: (more ++ behind)))
      (before.flatMap Fragment.lexemes ++ [Text.wordLexeme (word ++ ['\\', '}'] ++ more)])
      (.content 0) behind := by
  have hescape : Text.wordLength (Step.curlyCloses lenient 0) (['\\', '}'] ++ (more ++ behind)) =
      2 + Text.wordLength (Step.curlyCloses lenient 0) (more ++ behind) :=
    (Text.wordLength_escaped rfl).trans (Nat.add_comm _ 2)
  exact (h.trace_escaped lenient).reads.trans
    (h.reads_joint (List.cons_ne_nil _ _) (Text.joinsAs_backslash _ _) hescape hmore)

/-- The escaped bracket says what the bracket does. -/
theorem unescape_escaped (h : MeetsStray text before word rest) (more : List Char) :
    Text.unescape (word ++ ['\\', '}'] ++ more) = Text.unescape (word ++ ['}'] ++ more) := by
  have hescape : Text.unescape ('\\' :: '}' :: more) = '}' :: Text.unescape more :=
    Text.unescape_escaped rfl
  rw [h.unescape_bracket, List.append_assoc]
  exact (Text.unescape_append h.held (Text.joinsAs_backslash _ _)).trans (congrArg _ hescape)

theorem length_escaped (word more : List Char) :
    (word ++ ['\\', '}'] ++ more).length = (word ++ ['}'] ++ more).length + 1 := by
  simp only [List.length_append, List.length_cons, List.length_nil]
  omega

/-- Stretched at the bracket, the word that goes through it is the one that goes through the
escaped bracket. -/
theorem stretch_place (h : MeetsStray text before word rest) (start : Nat) (more : List Char) :
    ((Text.wordLexeme (word ++ ['}'] ++ more)).place start).stretch (start + word.length) =
      (Text.wordLexeme (word ++ ['\\', '}'] ++ more)).place start := by
  have hstart : start ≤ start + word.length := Nat.le_add_right _ _
  have hstop : ¬ start + (word ++ ['}'] ++ more).length ≤ start + word.length := by
    simp only [List.length_append, List.length_cons, List.length_nil]
    omega
  rw [Token.stretch, Lexeme.place, Lexeme.place, Span.stretch, Text.wordLexeme, Text.wordLexeme,
    if_pos hstart, if_neg hstop, h.unescape_escaped, length_escaped, Nat.add_assoc]

/-- Escaping the bracket changes a lenient run by the place of the backslash alone. -/
theorem lexMarkup_escaped (h : MeetsStray text before word rest) :
    lexMarkup true (Fragment.sourceOf before ++ (word ++ '\\' :: '}' :: rest)) =
      { tokens := (lexMarkup true text).tokens.map
          (Token.stretch ((Fragment.sourceOf before).length + word.length))
        error := (lexMarkup true text).error.map (LexError.shift 1) } := by
  have htext : text = Fragment.sourceOf before ++ (word ++ '}' :: rest) := (h.trace true).text_eq
  obtain ⟨more, behind, rfl, hmore⟩ := Text.exists_word false rest
  rw [lexMarkup_of_reads_word (by simp) (h.reads_escaped true hmore),
    lexMarkup_of_reads_word (by simp) (h.reads_lenient hmore), Lexed.mk.injEq]
  constructor
  · have hbefore := Fragment.sourceOf_flatMap_lexemes before
    rw [List.map_append, List.map_cons, h.stretch_place, Lexeme.map_stretch_placeAll_of_le,
      Lexeme.map_stretch_placeAll_of_lt]
    · rw [length_escaped, Nat.add_assoc]
    · simp only [List.length_append, List.length_cons, List.length_nil]
      omega
    · rw [hbefore]
      omega
  · rw [Option.map_map]
    apply Option.map_congr
    intro failure hfailure
    have hunread := (unread_suffix_of_run hfailure).length_le
    simp only [Function.comp_apply, Failure.toLexError, LexError.shift, LexError.mk.injEq,
      true_and]
    rw [htext]
    simp only [List.length_append, List.length_cons]
    omega

/-- A strict run comes past the escaped bracket. -/
theorem lt_position_escaped (h : MeetsStray text before word rest) {error : LexError}
    (herror : (lexMarkup false (Fragment.sourceOf before ++ (word ++ '\\' :: '}' :: rest))).error =
      some error) :
    (Fragment.sourceOf before).length + word.length + 1 < error.position := by
  obtain ⟨more, behind, rfl, hmore⟩ := Text.exists_word true rest
  rw [lexMarkup_of_reads_word (by simp) (h.reads_escaped false hmore)] at herror
  obtain ⟨failure, hfailure, rfl⟩ := Option.map_eq_some_iff.mp herror
  have hunread := (unread_suffix_of_run hfailure).length_le
  simp only [Failure.toLexError, List.length_append, List.length_cons]
  omega

theorem toList_escapeAt {input : String} (h : MeetsStray input.toList before word rest) :
    (escapeAt ((Fragment.sourceOf before).length + word.length) input).toList =
      Fragment.sourceOf before ++ (word ++ '\\' :: '}' :: rest) := by
  have htext : input.toList = (Fragment.sourceOf before ++ word) ++ '}' :: rest := by
    rw [List.append_assoc]
    exact (h.trace false).text_eq
  rw [escapeAt, String.toList_ofList, htext, ← List.length_append, List.take_left, List.drop_left,
    List.append_assoc]

end Markup.MeetsStray

section Escaping

variable {input : String} {position : Nat}

theorem escapeStray_of_error (h : (lex {} input).error = some ⟨.unescapedClosingCurly, position⟩) :
    escapeStray input = escapeAt position input := by
  rw [escapeStray, h]

theorem escapeStray_eq_self
    (h : (lex {} input).error.map LexError.cause ≠ some .unescapedClosingCurly) :
    escapeStray input = input := by
  unfold escapeStray
  split
  next heq => exact absurd (by rw [heq]; rfl) h
  next => rfl

/-- A lenient run does not tell an escaped bracket from a stray one. -/
theorem lex_escapeAt (h : (lex {} input).error = some ⟨.unescapedClosingCurly, position⟩) :
    lex { lenient := true } (escapeAt position input) =
      { tokens := (lex { lenient := true } input).tokens.map (Token.stretch position)
        error := (lex { lenient := true } input).error.map (LexError.shift 1) } := by
  obtain ⟨before, word, rest, hmeets, rfl⟩ := exists_meetsStray_of_error h
  rw [lex_markup, lex_markup, hmeets.toList_escapeAt]
  exact hmeets.lexMarkup_escaped

/-- The kinds and texts that a lenient run emits, and the cause of its error, are the same with
the first stray bracket escaped. -/
theorem lex_lenient_escapeStray (input : String) :
    (lex { lenient := true } (escapeStray input)).pieces = (lex { lenient := true } input).pieces ∧
      (lex { lenient := true } (escapeStray input)).error.map LexError.cause =
        (lex { lenient := true } input).error.map LexError.cause := by
  by_cases hcause : (lex {} input).error.map LexError.cause = some .unescapedClosingCurly
  · obtain ⟨⟨_, position⟩, herror, rfl⟩ := Option.map_eq_some_iff.mp hcause
    rw [escapeStray_of_error herror, lex_escapeAt herror, Lexed.pieces, List.map_map,
      Option.map_map]
    exact ⟨rfl, rfl⟩
  · rw [escapeStray_eq_self hcause]
    exact ⟨rfl, rfl⟩

/-- A stray bracket is in the input, and the next one is behind it once it is escaped. -/
theorem position_lt_of_error (h : (lex {} input).error = some ⟨.unescapedClosingCurly, position⟩) :
    position < input.length ∧ (escapeAt position input).length = input.length + 1 ∧
      ∀ error ∈ (lex {} (escapeAt position input)).error, position + 1 < error.position := by
  obtain ⟨before, word, rest, hmeets, rfl⟩ := exists_meetsStray_of_error h
  have htext : input.toList = Markup.Fragment.sourceOf before ++ (word ++ '}' :: rest) :=
    (hmeets.trace false).text_eq
  rw [← String.length_toList, ← String.length_toList, hmeets.toList_escapeAt, htext]
  refine ⟨?_, ?_, fun error herror => ?_⟩
  · simp only [List.length_append, List.length_cons]
    omega
  · simp only [List.length_append, List.length_cons]
    omega
  · rw [lex_markup, hmeets.toList_escapeAt] at herror
    exact hmeets.lt_position_escaped herror

/-- Escaping comes to an end, for what is left behind the stray bracket gets shorter. -/
theorem exists_iterate_escapeStray {bound : Nat} (h : ∀ error ∈ (lex {} input).error,
      error.cause = .unescapedClosingCurly → input.length ≤ error.position + bound) :
    ∃ count ≤ bound, (lex {} (escapeStray^[count] input)).error.map LexError.cause ≠
      some .unescapedClosingCurly := by
  induction bound generalizing input with
  | zero =>
      refine ⟨0, Nat.le_refl _, fun hcause => ?_⟩
      obtain ⟨⟨_, position⟩, herror, rfl⟩ := Option.map_eq_some_iff.mp hcause
      have hinside := (position_lt_of_error herror).1
      exact absurd (h _ herror rfl) (Nat.not_le_of_lt hinside)
  | succ bound ih =>
      by_cases hcause : (lex {} input).error.map LexError.cause = some .unescapedClosingCurly
      · obtain ⟨⟨_, position⟩, herror, rfl⟩ := Option.map_eq_some_iff.mp hcause
        obtain ⟨_, hlength, hnext⟩ := position_lt_of_error herror
        have hleft : input.length ≤ position + (bound + 1) := h _ herror rfl
        rw [← escapeStray_of_error herror] at hlength hnext
        obtain ⟨count, hcount, hends⟩ := ih fun error hmem _ => by
          have hposition := hnext error hmem
          omega
        exact ⟨count + 1, Nat.succ_le_succ hcount, hends⟩
      · exact ⟨0, Nat.zero_le _, hcause⟩

end Escaping

/-- Lenient lexing means what escaping would mean. Where a strict run refuses a bracket as stray,
a lenient run reads the same with the bracket escaped, one character further on. Escaping one
stray bracket after the other comes to an end, and the strict run on what is left then reads what
the lenient run reads on the input. -/
theorem lex_escapeStray (input : String) :
    (∀ position, (lex {} input).error = some ⟨.unescapedClosingCurly, position⟩ →
        escapeStray input = escapeAt position input ∧
        lex { lenient := true } (escapeAt position input) =
          { tokens := (lex { lenient := true } input).tokens.map (Token.stretch position)
            error := (lex { lenient := true } input).error.map (LexError.shift 1) }) ∧
      (∃ count ≤ input.length, (lex {} (escapeStray^[count] input)).error.map LexError.cause ≠
        some .unescapedClosingCurly) ∧
      ∀ count, (lex {} (escapeStray^[count] input)).error.map LexError.cause ≠
          some .unescapedClosingCurly →
        (lex {} (escapeStray^[count] input)).pieces = (lex { lenient := true } input).pieces ∧
          (lex {} (escapeStray^[count] input)).error.map LexError.cause =
            (lex { lenient := true } input).error.map LexError.cause := by
  refine ⟨fun position herror => ⟨escapeStray_of_error herror, lex_escapeAt herror⟩, ?_, ?_⟩
  · exact exists_iterate_escapeStray fun error _ _ => Nat.le_add_left _ _
  · intro count
    induction count generalizing input with
    | zero =>
        intro hends
        have hsame : lex { lenient := true } input = lex {} input := lexMarkup_lenient_eq hends
        rw [hsame]
        exact ⟨rfl, rfl⟩
    | succ count ih =>
        intro hends
        obtain ⟨hpieces, hcause⟩ := lex_lenient_escapeStray input
        rw [Function.iterate_succ_apply] at hends ⊢
        rw [← hpieces, ← hcause]
        exact ih (escapeStray input) hends

/-- Two brackets are escaped one after the other. A bracket that closes a subtree is not stray. -/
example : escapeStray^[2] "a\x7d<b c=\x7b\x7d>\x7d" = "a\\\x7d<b c=\x7b\x7d>\\\x7d" := by
  decide +kernel

end TemplateLexer
