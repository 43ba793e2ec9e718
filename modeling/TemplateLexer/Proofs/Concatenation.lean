import TemplateLexer.Proofs.Brackets
import TemplateLexer.Proofs.Lookahead

/-! # Text behind an input

An input that is read to its end, and does not end in a word, is read in the same
way in front of any other text, which is then read as if it stood alone. An error
that is noticed before the end of the input stays the same whatever follows.
Both need that no tag is named like a comment, because the end of that comment
could follow.
-/

namespace TemplateLexer

/-- The span of the same characters when as many others as `offset` says precede them. -/
def Span.shift (offset : Nat) (span : Span) : Span :=
  ⟨offset + span.start, offset + span.stop⟩

/-- The token of the same characters when others precede them. -/
def Token.shift (offset : Nat) (token : Token) : Token :=
  { token with span := token.span.shift offset }

/-- The error at the same character when others precede it. -/
def LexError.shift (offset : Nat) (error : LexError) : LexError :=
  { error with position := offset + error.position }

/-- Placing lexemes further on shifts their tokens. -/
theorem Lexeme.placeAll_add (offset start : Nat) (lexemes : List Lexeme) :
    placeAll (offset + start) lexemes = (placeAll start lexemes).map (Token.shift offset) := by
  induction lexemes generalizing start with
  | nil => rfl
  | cons lexeme rest ih =>
      rw [placeAll, placeAll, Nat.add_assoc, ih, ih]
      split
      next => rfl
      next => simp [place, Token.shift, Span.shift, Nat.add_assoc]

namespace Markup

variable {lenient : Bool} {state next last : State} {text rest unread : List Char}
  {emitted fragments : List Fragment} {failure : Failure}

/-- A trace behind which something is left reads the same when more follows. -/
theorem Trace.append (h : Trace lenient state text fragments last unread) (hne : unread ≠ [])
    (hcomment : .token .tagName Comment.tagName ∉ fragments) (more : List Char) :
    Trace lenient state (text ++ more) fragments last (unread ++ more) := by
  rw [h.text_eq, List.append_assoc]
  exact h.exchange (.append_right hne more) (fun hword => hword.append hne more)
    fun hmem => absurd hmem hcomment

/-- A production reads a word, which is one token, or nothing that is a token of text. -/
theorem Advance.text_cases (h : Advance lenient state text emitted next rest) :
    (∃ word, emitted = [.text word] ∧
        Fragment.piecesOf emitted = [(.text, Text.unescape word)]) ∨
      (∀ word, .text word ∉ emitted) ∧ ∀ piece ∈ Fragment.piecesOf emitted, piece.1 ≠ .text := by
  by_cases htext : ∃ word, .text word ∈ emitted
  · obtain ⟨word, hmem⟩ := htext
    cases h with
    | word hne hlength =>
        refine .inl ⟨_, rfl, ?_⟩
        rw [Fragment.piecesOf_cons, Fragment.piecesOf_text hne (Text.isBlank_of_mem_word hlength)]
        rfl
    | _ => simp [Fragment.tagPunctuation, Fragment.subtreeBrace, Fragment.equals] at hmem
  · rw [not_exists] at htext
    refine .inr ⟨htext, fun piece hpiece => ?_⟩
    obtain ⟨lexeme, hlexeme, hkind⟩ := Lexeme.kind_of_mem_piecesOf hpiece
    obtain ⟨fragment, hfragment, hmem⟩ := List.mem_flatMap.mp hlexeme
    have hplain : ∀ raw, fragment ≠ .text raw := fun raw heq => htext raw (heq ▸ hfragment)
    obtain ⟨kind, source, hne, rfl⟩ :=
      (h.isMarkup fragment hfragment).exists_of_mem_lexemes hplain hmem
    rw [hkind]
    exact hne

theorem Advance.piecesOf_ne_nil (h : Advance lenient state text emitted next rest) :
    Fragment.piecesOf emitted ≠ [] := by
  intro hnil
  have hsource : Fragment.sourceOf emitted = [] := by
    rw [← Fragment.sourceOf_flatMap_lexemes]
    exact Lexeme.sourceOf_eq_nil_of_piecesOf hnil
  exact h.sourceOf_ne_nil hsource

/-- The last token of a trace is one of text exactly if a word was read last. -/
theorem Trace.getLast?_kind_iff (h : Trace lenient state text fragments last unread) :
    (Fragment.piecesOf fragments).getLast?.map Prod.fst = some .text ↔
      ∃ word, fragments.getLast? = some (.text word) := by
  rcases h.eq_refl_or_exists_last with ⟨rfl, rfl, rfl⟩ |
    ⟨middle, between, first, emitted, _, hstep, rfl⟩
  · simp
  · rw [Fragment.piecesOf_append, List.getLast?_append_of_ne_nil _ hstep.piecesOf_ne_nil,
      List.getLast?_append_of_ne_nil _ hstep.emitted_ne_nil]
    rcases hstep.text_cases with ⟨word, rfl, hpieces⟩ | ⟨hfragments, hpieces⟩
    · simp [hpieces]
    · constructor
      · intro hlast
        obtain ⟨piece, hpiece, hkind⟩ := Option.map_eq_some_iff.mp hlast
        exact absurd hkind (hpieces piece (List.mem_of_getLast? hpiece))
      · rintro ⟨word, hword⟩
        exact absurd (List.mem_of_getLast? hword) (hfragments word)

/-- A trace to the end of the text ends there before any text, unless it ends in a word. -/
theorem Trace.append_of_content {depth : Nat}
    (h : Trace lenient state text fragments (.content depth) [])
    (hlast : (Fragment.piecesOf fragments).getLast?.map Prod.fst ≠ some .text)
    (hcomment : .token .tagName Comment.tagName ∉ fragments) (more : List Char) :
    Trace lenient state (text ++ more) fragments (.content depth) more := by
  rw [h.text_eq, List.append_nil]
  exact h.exchange_of_content (fun word hword => hlast (h.getLast?_kind_iff.mpr ⟨word, hword⟩))
    fun hmem => absurd hmem hcomment

/-- A text that is refused before its end is refused in the same way when more follows. Only
a string or an interpolation could still be ended. -/
theorem Refusal.append (h : Refusal lenient state text emitted failure)
    (hcause : failure.cause ∉ [.unterminatedString, .unterminatedInterpolation])
    (hunread : failure.unread ≠ []) (hread : Fragment.sourceOf emitted ≠ text)
    (more : List Char) :
    Refusal lenient state (text ++ more) emitted
      { failure with unread := failure.unread ++ more } := by
  cases h with
  | endInSubtree => exact absurd rfl hunread
  | endInTag => exact absurd rfl hunread
  | endBeforeValue => exact absurd rfl hunread
  | @closingTag depth blanks name rest hblanks hname hrest hend =>
      have hbegins := BeginsAs.append_right hunread more
      simpa using
        Refusal.closingTag hblanks hname (hbegins.stops hrest) (hbegins.head?_ne hend)
  | @tagName depth blanks rest hblanks hrest hname hslash =>
      have hbegins := BeginsAs.append_right hunread more
      simpa using Refusal.tagName hblanks (hbegins.stops hrest) (hbegins.stops hname)
        (hbegins.head?_ne hslash)
  | @tooDeep depth index text htext =>
      have hindex : index < text.length := by simpa using hunread
      rw [← List.drop_append_of_le_length (Nat.le_of_lt hindex)]
      exact .tooDeep (Interpolation.extent_append_tooDeep htext hindex more)
  | interpolation => simp at hcause
  | closingCurly hstrict => exact .closingCurly hstrict
  | digit hc => exact .digit hc
  | quote => exact .quote
  | @reserved depth name blanks rest hname hblanks hstop hrest hequals hreserved =>
      have hne : rest ≠ [] := by
        rintro rfl
        simp [Fragment.sourceOf, Fragment.source] at hread
      have hbegins := BeginsAs.append_right hne more
      simpa using Refusal.reserved hname hblanks ((hbegins.append_left blanks).stops hstop)
        (hbegins.stops hrest) (hbegins.head?_ne hequals) hreserved
  | tag hblank hname hc => exact .tag hblank hname hc
  | tagEnd hblank hc => exact .tagEnd hblank hc
  | quotedValue => simp at hcause
  | @bareValue name depth value source rest hfirst hextent hrefused =>
      have hbegins := BeginsAs.append_right hunread more
      obtain ⟨c, tail, rfl⟩ := List.exists_cons_of_ne_nil hunread
      have hhead : (source ++ (c :: tail ++ more)).head? = (source ++ c :: tail).head? := by
        cases source <;> rfl
      rw [← hhead] at hfirst
      simpa using Refusal.bareValue hfirst (BareValue.extent_exchange hextent hbegins) hrefused
  | value hblank hquote hcurly hfirst => exact .value hblank hquote hcurly hfirst

/-- What is unread at a failure of a run is an end of the text. -/
theorem unread_suffix_of_run (h : (run lenient state text).2 = some failure) :
    failure.unread <:+ text := by
  obtain ⟨before, last, unread, emitted, htrace, hrefusal, _⟩ := exists_refusal_of_run h
  rw [htrace.text_eq]
  exact hrefusal.unread_suffix.trans (List.suffix_append _ _)

/-- A run without a failure is followed by a run on what stands behind the text. -/
theorem run_append (hnone : (run lenient state text).2 = none)
    (hlast : (Fragment.piecesOf (run lenient state text).1).getLast?.map Prod.fst ≠ some .text)
    (hcomment : .token .tagName Comment.tagName ∉ (run lenient state text).1)
    (more : List Char) :
    run lenient state (text ++ more) =
      ((run lenient state text).1 ++ (run lenient (.content 0) more).1,
        (run lenient (.content 0) more).2) :=
  ((trace_of_run_eq_none hnone).append_of_content hlast hcomment more).run_eq

/-- A run with a failure that is noticed before the end of the text has this failure whatever
follows. -/
theorem run_append_of_failure (hsome : (run lenient state text).2 = some failure)
    (hcause : failure.cause ∉ [.unterminatedString, .unterminatedInterpolation])
    (hunread : failure.unread ≠ []) (hread : Fragment.sourceOf (run lenient state text).1 ≠ text)
    (hcomment : .token .tagName Comment.tagName ∉ (run lenient state text).1)
    (more : List Char) :
    run lenient state (text ++ more) =
      ((run lenient state text).1, some { failure with unread := failure.unread ++ more }) := by
  obtain ⟨before, last, unread, emitted, htrace, hrefusal, hfragments⟩ :=
    exists_refusal_of_run hsome
  rw [hfragments] at hread hcomment ⊢
  rw [List.mem_append, not_or] at hcomment
  have hleft : unread ≠ [] := by
    rintro rfl
    exact hunread (List.suffix_nil.mp hrefusal.unread_suffix)
  have hemitted : Fragment.sourceOf emitted ≠ unread := by
    rintro rfl
    exact hread (by rw [Fragment.sourceOf_append, ← htrace.text_eq])
  have hrefused := hrefusal.append hcause hunread hemitted more
  rw [(htrace.append hleft hcomment.1 more).run_eq, run_of_refusal hrefused]

end Markup

section Appended

variable {lenient : Bool} {input : List Char}

theorem getLast?_pieces (lexed : Lexed) :
    lexed.pieces.getLast?.map Prod.fst = lexed.tokens.getLast?.map Token.kind := by
  rw [Lexed.pieces, List.getLast?_map, Option.map_map]
  rfl

/-- Unless a token says so, no tag is named like a comment. -/
theorem tagName_not_mem_run
    (h : (.tagName, Markup.Comment.tagName) ∉ (lexMarkup lenient input).pieces) :
    .token .tagName Markup.Comment.tagName ∉ (Markup.run lenient (.content 0) input).1 := by
  rw [pieces_lexMarkup] at h
  exact fun hmem => h (Markup.Fragment.mem_piecesOf_of_mem hmem (by decide))

/-- An error in the second of two texts is noticed as many characters later as the first one
has. -/
theorem toLexError_append {failure : Markup.Failure} {second : List Char}
    (h : failure.unread <:+ second) (first : List Char) :
    failure.toLexError (first ++ second) = (failure.toLexError second).shift first.length := by
  have hlength := h.length_le
  simp only [Markup.Failure.toLexError, LexError.shift, List.length_append, LexError.mk.injEq,
    true_and]
  omega

/-- An error keeps its position when what is unread at it grows with the text. -/
theorem toLexError_append_unread (failure : Markup.Failure) (input more : List Char) :
    ({ failure with unread := failure.unread ++ more } : Markup.Failure).toLexError
      (input ++ more) = failure.toLexError input := by
  simp only [Markup.Failure.toLexError, List.length_append, LexError.mk.injEq, true_and]
  omega

end Appended

/-- An input that has no error and does not end in a word is read in front of any other text as
it is alone, and so is what follows it. Tokens and errors are shifted by its length. -/
theorem lex_append (lenient : Bool) (first second : String)
    (hok : (lex { lenient } first).error = none)
    (hlast : (lex { lenient } first).tokens.getLast?.map Token.kind ≠ some .text)
    (hcomment : (.tagName, Markup.Comment.tagName) ∉ (lex { lenient } first).pieces) :
    lex { lenient } (first ++ second) =
      { tokens := (lex { lenient } first).tokens ++
          (lex { lenient } second).tokens.map (Token.shift first.length)
        error := (lex { lenient } second).error.map (LexError.shift first.length) } := by
  rw [lex_markup] at hok hlast hcomment
  rw [lex_markup, lex_markup, lex_markup, String.toList_append, ← String.length_toList]
  generalize first.toList = first at hok hlast hcomment ⊢
  generalize second.toList = second
  have hnone : (Markup.run lenient (.content 0) first).2 = none := Option.map_eq_none_iff.mp hok
  rw [← getLast?_pieces, pieces_lexMarkup] at hlast
  have hrun := Markup.run_append hnone hlast (tagName_not_mem_run hcomment) second
  have hsource : Lexeme.sourceOf (markupLexemes lenient first) = first := by
    rw [markupLexemes, Markup.Fragment.sourceOf_flatMap_lexemes]
    exact (Markup.run_sourceOf lenient (.content 0) first).2 hnone
  have htokens : Lexeme.placeAll 0 (markupLexemes lenient first ++ markupLexemes lenient second) =
      (lexMarkup lenient first).tokens ++
        (lexMarkup lenient second).tokens.map (Token.shift first.length) := by
    rw [Lexeme.placeAll_append, hsource, Nat.add_comm, Lexeme.placeAll_add, ← lexMarkup_tokens,
      ← lexMarkup_tokens]
  have herror : (Markup.run lenient (.content 0) second).2.map (·.toLexError (first ++ second)) =
      (lexMarkup lenient second).error.map (LexError.shift first.length) := by
    rw [lexMarkup_error, Option.map_map]
    apply Option.map_congr
    intro failure hfailure
    exact toLexError_append (Markup.unread_suffix_of_run hfailure) first
  rw [lexMarkup_of_run hrun, List.flatMap_append, herror, ← htokens]
  rfl

/-- A tag and an interpolation are followed by a bracket that is an error. -/
theorem lex_append_closingCurly :
    lex {} ("<a *b=\"c\"/>\x7b\x7b d \x7d\x7d" ++ " \x7d") =
      { tokens := (lex {} "<a *b=\"c\"/>\x7b\x7b d \x7d\x7d").tokens ++
          [⟨.whitespace, " ", ⟨18, 19⟩⟩]
        error := some ⟨.unescapedClosingCurly, 19⟩ } :=
  (lex_append false "<a *b=\"c\"/>\x7b\x7b d \x7d\x7d" " \x7d" (by decide +kernel)
    (by decide +kernel) (by decide +kernel)).trans (by decide +kernel)

/-- An error that is noticed before the end of an input, with some of the input left without a
token, stays the same whatever follows. Only a string or an interpolation that has no end could
still be ended. -/
theorem lex_append_of_error (lenient : Bool) (input more : String) (error : LexError)
    (herror : (lex { lenient } input).error = some error)
    (hcause : error.cause ∉ [.unterminatedString, .unterminatedInterpolation])
    (hposition : error.position < input.length)
    (hconsumed : (lex { lenient } input).consumed < input.length)
    (hcomment : (.tagName, Markup.Comment.tagName) ∉ (lex { lenient } input).pieces) :
    lex { lenient } (input ++ more) = lex { lenient } input := by
  rw [lex_markup] at herror hconsumed hcomment
  rw [lex_markup, lex_markup, String.toList_append]
  rw [← String.length_toList] at hposition hconsumed
  generalize input.toList = input at herror hposition hconsumed hcomment ⊢
  generalize more.toList = more
  obtain ⟨failure, hfailure, rfl⟩ := Option.map_eq_some_iff.mp herror
  have hunread : failure.unread ≠ [] := by
    intro hnil
    simp [Markup.Failure.toLexError, hnil] at hposition
  have hread : Markup.Fragment.sourceOf (Markup.run lenient (.content 0) input).1 ≠ input := by
    intro hall
    rw [lexMarkup_consumed, hall] at hconsumed
    exact Nat.lt_irrefl _ hconsumed
  have hrun := Markup.run_append_of_failure hfailure hcause hunread hread
    (tagName_not_mem_run hcomment) more
  rw [lexMarkup_of_run hrun, Option.map_some, toLexError_append_unread, ← herror]
  rfl

/-- A number with two points is none, whatever follows the second one. -/
theorem lex_append_malformedNumber :
    lex {} ("<a b=1.2." ++ "3>") = lex {} "<a b=1.2." :=
  lex_append_of_error false "<a b=1.2." "3>" ⟨.malformedNumber, 8⟩ (by decide +kernel) (by decide)
    (by decide) (by decide +kernel) (by decide +kernel)

end TemplateLexer
