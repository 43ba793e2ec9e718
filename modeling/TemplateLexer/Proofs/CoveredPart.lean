import TemplateLexer.Proofs.Brackets
import TemplateLexer.Proofs.Lookahead
import TemplateLexer.Proofs.TemplateText

/-! # The part of an input that its tokens cover

Tokens cover a beginning of their input, also if there is an error. Under the
strict rules this part can be written down from the tokens alone, because a word
of text holds no character that a backslash could escape and does not. And the
part has the same tokens as the whole input: the lexer meets the end of it where
it met the error, and emits nothing there that it did not emit before.
-/

namespace TemplateLexer

/-- The beginning of an input that its tokens cover. -/
def coveredPart (options : Options) (input : String) : String :=
  String.ofList (input.toList.take (lex options input).consumed)

/-- The characters that a piece is written as: those of its text, with the backslashes that a
word of markup text needs. -/
def written (piece : Piece) : List Char :=
  if piece.1 = .text then Markup.Text.escape piece.2 else piece.2

namespace Lexeme

/-- What a lexeme says is written as the characters that it was read from. -/
def IsWritten (lexeme : Lexeme) : Prop := written (lexeme.kind, lexeme.text) = lexeme.source

theorem flatMap_written_piecesOf {lexemes : List Lexeme}
    (h : ∀ lexeme ∈ lexemes, lexeme.IsWritten) :
    (piecesOf lexemes).flatMap written = sourceOf lexemes := by
  induction lexemes with
  | nil => rfl
  | cons lexeme rest ih =>
      obtain ⟨hlexeme, hrest⟩ := List.forall_mem_cons.mp h
      by_cases hempty : lexeme.source = []
      · simpa [piecesOf, sourceOf_cons, hempty] using ih hrest
      · rw [piecesOf_cons hempty, List.flatMap_cons, sourceOf_cons, ih hrest, hlexeme]

end Lexeme

namespace Markup

variable {lenient : Bool} {state next : State} {text rest : List Char}
  {emitted : List Fragment} {failure : Failure}

/-- Where a closing bracket ends a word, all that can be escaped in a word is. -/
theorem Text.escape_unescape {word rest : List Char}
    (h : wordLength true (word ++ rest) = word.length) : escape (unescape word) = word := by
  refine word_induction (motive := fun word => escape (unescape word) = word) ?_ ?_ ?_ h
  · rfl
  · intro c tail hescapable htail
    rw [unescape_escaped hescapable, escape_cons, if_pos hescapable, htail]
    rfl
  · intro c tail hends hbackslash htail
    have hc : isEscapable c = false := by
      simp only [endsWord, Bool.and_true, Bool.or_eq_false_iff] at hends
      simp [isEscapable, hends.1.1.2, hends.1.2]
    rw [unescape_cons_of_append hbackslash, escape_cons, if_neg (by simp [hc]), htail]
    rfl

theorem Fragment.IsMarkup.isWritten {fragment : Fragment} (h : fragment.IsMarkup)
    (htext : ∀ raw, fragment ≠ .text raw) :
    ∀ lexeme ∈ fragment.lexemes, lexeme.IsWritten := by
  intro lexeme hmem
  obtain ⟨kind, source, hkind, rfl⟩ := h.exists_of_mem_lexemes htext hmem
  exact if_neg hkind

/-- Under the strict rules a closing bracket ends a word wherever it stands. -/
theorem Advance.isWritten (h : Advance false state text emitted next rest) :
    ∀ fragment ∈ emitted, ∀ lexeme ∈ fragment.lexemes, lexeme.IsWritten := by
  intro fragment hmem
  by_cases htext : ∃ raw, fragment = .text raw
  · obtain ⟨raw, rfl⟩ := htext
    cases h with
    | @word depth word rest hne hlength =>
        obtain rfl : raw = word := by simpa using hmem
        intro lexeme hlexeme
        have hblank := Text.isBlank_of_mem_word hlength
        rw [Fragment.lexemes, Text.lexemes_of_word hne hblank] at hlexeme
        obtain rfl := List.mem_singleton.mp hlexeme
        exact Text.escape_unescape hlength
    | _ => simp [Fragment.tagPunctuation, Fragment.subtreeBrace, Fragment.equals] at hmem
  · exact (h.isMarkup fragment hmem).isWritten (not_exists.mp htext)

theorem Refusal.isWritten (h : Refusal lenient state text emitted failure) :
    ∀ fragment ∈ emitted, ∀ lexeme ∈ fragment.lexemes, lexeme.IsWritten := by
  intro fragment hmem
  refine (h.isMarkup fragment hmem).isWritten ?_
  rintro raw rfl
  cases h <;> simp at hmem

theorem run_nil (lenient : Bool) (state : State) : (run lenient state []).1 = [] := by
  rw [run_eq]
  rcases state with ⟨_ | _⟩ | _ | _ | _ <;> rfl

/-- What was read before a refusal is read of it alone. -/
theorem Refusal.run_sourceOf (h : Refusal lenient state text emitted failure) :
    (run lenient state (Fragment.sourceOf emitted)).1 = emitted := by
  cases h with
  | @reserved depth name blanks rest hname hblanks hstop hrest hequals hreserved =>
      -- The name is read before it is refused, and the end of the text gives it no value either.
      have hend : BeginsAs [] rest := nofun
      have hrefused : Refusal lenient (.tag depth) (name ++ (blanks ++ []))
          [.attributeName name, .blanks blanks] ⟨.expectedAttributeKey, name ++ (blanks ++ [])⟩ :=
        .reserved hname hblanks ((hend.append_left blanks).stops hstop) stops_nil nofun hreserved
      exact congrArg Prod.fst (run_of_refusal hrefused)
  | _ => exact run_nil lenient _

/-- No word begins at a refusal. -/
theorem Refusal.beginsNoWord (h : Refusal lenient state text emitted failure) :
    BeginsNoWord lenient state (Fragment.sourceOf emitted) := by
  cases h with
  | @endInTag state => cases state <;> trivial
  | _ => trivial

/-- A run reads a beginning of its text, and reads the same of it alone. -/
theorem run_sourceOf_run (lenient : Bool) (state : State) (text : List Char) :
    (run lenient state (Fragment.sourceOf (run lenient state text).1)).1 =
      (run lenient state text).1 := by
  cases hfailure : (run lenient state text).2 with
  | none => rw [(run_sourceOf lenient state text).2 hfailure]
  | some failure =>
      obtain ⟨before, last, unread, emitted, htrace, hrefusal, hfragments⟩ :=
        exists_refusal_of_run hfailure
      -- What the refusal leaves of its text begins with no word.
      have hcut := htrace.cut hrefusal.begins fun _ => hrefusal.beginsNoWord
      rw [hfragments, Fragment.sourceOf_append, hcut.run_eq, hrefusal.run_sourceOf]

/-- Under the strict rules, what a run has read is written as it was. -/
theorem isWritten_of_mem_run (state : State) (text : List Char) :
    ∀ lexeme ∈ (run false state text).1.flatMap Fragment.lexemes, lexeme.IsWritten := by
  intro lexeme hmem
  obtain ⟨fragment, hfragment, hlexeme⟩ := List.mem_flatMap.mp hmem
  exact forall_mem_run Refusal.isWritten Advance.isWritten state text fragment hfragment lexeme
    hlexeme

end Markup

/-- The part that the tokens cover is the part that the run reads. -/
theorem coveredPart_toList (lenient : Bool) (input : String) :
    (coveredPart { lenient } input).toList =
      Markup.Fragment.sourceOf (Markup.run lenient (.content 0) input.toList).1 := by
  obtain ⟨hbegins, _⟩ := Markup.run_sourceOf lenient (.content 0) input.toList
  rw [coveredPart, String.toList_ofList, lex_markup, lexMarkup_consumed]
  exact (List.prefix_iff_eq_take.mp hbegins).symm

theorem flatMap_written_pieces (input : String) :
    (lex {} input).pieces.flatMap written = (coveredPart {} input).toList := by
  rw [lex_markup, pieces_lexMarkup, coveredPart_toList, Markup.Fragment.piecesOf,
    Lexeme.flatMap_written_piecesOf (Markup.isWritten_of_mem_run _ _),
    Markup.Fragment.sourceOf_flatMap_lexemes]

/-- The tokens of an input cover all of it if there is no error. -/
theorem coveredPart_of_error_eq_none {lenient : Bool} {input : String}
    (h : (lex { lenient } input).error = none) : coveredPart { lenient } input = input := by
  rw [lex_markup, lexMarkup_error, Option.map_eq_none_iff] at h
  rw [← String.toList_inj, coveredPart_toList]
  exact (Markup.run_sourceOf lenient (.content 0) input.toList).2 h

/-- Under the strict rules the tokens of an input say how the part of it that they cover is
written, so that two inputs without an error have the same kinds and texts of tokens only if they
are the same. -/
theorem lex_written (input : String) :
    (lex {} input).pieces.flatMap written = (coveredPart {} input).toList ∧
      ∀ other, (lex {} input).error = none → (lex {} other).error = none →
        (lex {} input).pieces = (lex {} other).pieces → input = other := by
  refine ⟨flatMap_written_pieces input, fun other hinput hother hpieces => ?_⟩
  rw [← coveredPart_of_error_eq_none hinput, ← coveredPart_of_error_eq_none hother,
    ← String.toList_inj, ← flatMap_written_pieces, ← flatMap_written_pieces, hpieces]

/-- A text with an escape is the one that its tokens are written as. -/
theorem lex_written_escaped :
    "<a *b/> 1 \\< 2" = String.ofList ((lex {} "<a *b/> 1 \\< 2").pieces.flatMap written) :=
  (lex_written "<a *b/> 1 \\< 2").2 _ (by decide +kernel) (by decide +kernel) (by decide +kernel)

/-- The part of an input that its tokens cover has the same tokens, whether there was an error
behind it or not. -/
theorem lex_coveredPart (lenient : Bool) (input : String) :
    (lex { lenient } (coveredPart { lenient } input)).tokens = (lex { lenient } input).tokens ∧
      (lex { lenient } (coveredPart { lenient } input)).consumed =
        (lex { lenient } input).consumed := by
  have htokens : (lex { lenient } (coveredPart { lenient } input)).tokens =
      (lex { lenient } input).tokens := by
    rw [lex_markup, lex_markup, lexMarkup_tokens, lexMarkup_tokens, markupLexemes,
      coveredPart_toList, Markup.run_sourceOf_run]
    rfl
  exact ⟨htokens, by rw [Lexed.consumed, htokens]; rfl⟩

end TemplateLexer
