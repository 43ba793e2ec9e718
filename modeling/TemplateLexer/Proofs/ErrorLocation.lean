import TemplateLexer.Proofs.Tiling

/-! # Where errors stand

An error is told apart from the tokens in front of it only by what the lexer had
to look at before it noticed the error. So the position of an error is fixed by
the end of the last token and by the construct that is refused: it stands right
there, or behind the beginning of a construct that emits nothing until it is
complete. Only a truth value without a name is noticed behind its own tokens.
-/

namespace TemplateLexer

namespace Markup.BareValue

/-- Digits with at most one point among them. -/
def IsUnsigned (text : List Char) : Prop :=
  (∀ c ∈ text, c.isDigit ∨ c = '.') ∧ text.count '.' ≤ 1

/-- What can be the beginning of a bare value: digits with at most one point among them behind an
optional sign, or the beginning of a word in any letter case. -/
def IsBeginning : BareValue → List Char → Prop
  | .number, text => IsUnsigned text ∨ ∃ digits, text = '-' :: digits ∧ IsUnsigned digits
  | .boolean truth, text => text.map Char.toLower <+: word truth

theorem isUnsigned_of_isDigit {text : List Char} (h : ∀ c ∈ text, c.isDigit) :
    IsUnsigned text ∧ text.count '.' = 0 := by
  have hcount : text.count '.' = 0 := by
    rw [List.count_eq_zero]
    exact fun hmem => absurd (h '.' hmem) (by decide)
  exact ⟨⟨fun c hc => .inl (h c hc), by omega⟩, hcount⟩

theorem isUnsigned_of_unsignedLength {source rest : List Char}
    (h : unsignedLength (source ++ rest) = source.length) : IsUnsigned source := by
  rcases unsigned_cases h with ⟨hdigits, _, _⟩ | ⟨whole, fraction, rfl, hwhole, hfraction, _⟩
  · exact (isUnsigned_of_isDigit hdigits).1
  · obtain ⟨⟨hwhole, _⟩, hwholeCount⟩ := isUnsigned_of_isDigit hwhole
    obtain ⟨⟨hfraction, _⟩, hfractionCount⟩ := isUnsigned_of_isDigit hfraction
    refine ⟨List.forall_mem_append.mpr ⟨hwhole, List.forall_mem_cons.mpr ⟨.inr rfl, hfraction⟩⟩, ?_⟩
    rw [List.count_append, List.count_cons_self]
    omega

/-- What is measured of a bare value can be the beginning of one. -/
theorem isBeginning_of_extent {value : BareValue} {source rest : List Char}
    (h : value.extent (source ++ rest) = source.length) : value.IsBeginning source := by
  cases value with
  | boolean truth => exact map_toLower_isPrefix_of_spelled h
  | number =>
      rcases extent_number_cases h with ⟨_, hlength⟩ | ⟨digits, rfl, hlength⟩
      · exact .inl (isUnsigned_of_unsignedLength hlength)
      · exact .inr ⟨digits, rfl, isUnsigned_of_unsignedLength hlength⟩

end Markup.BareValue

open Markup

/-- Where an error stands in an input, and what the input holds there and in front of it, when
the tokens in front of the error end at `consumed`. -/
def LexError.IsLocated (error : LexError) (lenient : Bool) (input : List Char)
    (consumed : Nat) : Prop :=
  let position := error.position
  let skipped := Span.cut ⟨consumed, position⟩ input
  match error.cause with
  | .missingTagName =>
    (∃ blanks, skipped = '<' :: blanks ∧ AllBlank blanks) ∧
      ∀ c ∈ input[position]?, c ≠ '/' ∧ isNameChar c = false
  | .unterminatedTag =>
    input[position]? ≠ some '>' ∧
      (consumed = position ∨
        ∃ blanks name, skipped = '<' :: (blanks ++ '/' :: name) ∧ AllBlank blanks ∧ AllName name)
  | .unterminatedSubtree => consumed = position ∧ position = input.length
  | .unterminatedInterpolation =>
    consumed = position ∧ Span.cut ⟨position, position + 2⟩ input = ['{', '{']
  | .unterminatedString => consumed = position ∧ input[position]? = some '"'
  | .expectedAttributeKey =>
    (consumed = position ∧ ∃ c ∈ input[position]?, c = '"' ∨ c.isDigit) ∨
      (position < consumed ∧ input[consumed]? ≠ some '=' ∧
        ∃ name blanks, Span.cut ⟨position, consumed⟩ input = name ++ blanks ∧
          (∃ truth, name.map Char.toLower = BareValue.word truth) ∧ AllBlank blanks)
  | .malformedNumber => consumed ≤ position ∧ BareValue.number.IsBeginning skipped
  | .malformedLiteralTrue => consumed ≤ position ∧ (BareValue.boolean true).IsBeginning skipped
  | .malformedLiteralFalse => consumed ≤ position ∧ (BareValue.boolean false).IsBeginning skipped
  | .unsupportedAttributeValue => consumed = position
  | .unescapedClosingCurly =>
    consumed = position ∧ input[position]? = some '}' ∧ lenient = false
  | .quoteDepthExceeded =>
    Span.cut ⟨consumed, consumed + 2⟩ input = ['{', '{'] ∧ consumed + 2 ≤ position ∧
      ∃ c ∈ input[position]?, (Quote.ofChar? c).isSome
  | .invalidSpan _ => False

section Behind

variable {lenient : Bool} {covered read unread : List Char} {cause : LexError.Cause}

theorem cut_unread (length : Nat) :
    Span.cut ⟨covered.length, covered.length + length⟩ (covered ++ unread) =
      unread.take length := by
  rw [Span.cut, List.take_length_add_append, List.drop_left]

theorem cut_read : Span.cut ⟨covered.length, (covered ++ read).length⟩ (covered ++ read ++ unread) =
    read := by
  rw [List.append_assoc, List.length_append, Span.cut_append]

theorem getElem?_unread : (covered ++ unread)[covered.length]? = unread.head? := by
  rw [List.getElem?_append_right (Nat.le_refl _), Nat.sub_self, List.head?_eq_getElem?]

/-- An error that is noticed before anything is emitted stands behind what was read until then. -/
theorem isLocated_toLexError (read : List Char)
    (h : LexError.IsLocated ⟨cause, (covered ++ read).length⟩ lenient (covered ++ read ++ unread)
      covered.length) :
    (Failure.toLexError (covered ++ (read ++ unread)) ⟨cause, unread⟩).IsLocated lenient
      (covered ++ (read ++ unread)) (covered ++ Fragment.sourceOf []).length := by
  have hposition : (covered ++ read ++ unread).length - unread.length =
      (covered ++ read).length := by
    rw [List.length_append, Nat.add_sub_cancel]
  have hconsumed : covered ++ Fragment.sourceOf [] = covered := List.append_nil covered
  rw [Failure.toLexError, ← List.append_assoc, hposition, hconsumed]
  exact h

theorem isLocated_toLexError_nil
    (h : LexError.IsLocated ⟨cause, covered.length⟩ lenient (covered ++ unread) covered.length) :
    (Failure.toLexError (covered ++ unread) ⟨cause, unread⟩).IsLocated lenient
      (covered ++ unread) (covered ++ Fragment.sourceOf []).length := by
  apply isLocated_toLexError []
  rwa [List.append_nil]

end Behind

variable {lenient : Bool} {state : State} {text : List Char} {emitted : List Fragment}
  {failure : Failure}

/-- Every refusal of a text is located behind what the tokens in front of the text cover. -/
theorem Markup.Refusal.isLocated (h : Refusal lenient state text emitted failure)
    (covered : List Char) :
    (failure.toLexError (covered ++ text)).IsLocated lenient (covered ++ text)
      (covered ++ Fragment.sourceOf emitted).length := by
  cases h with
  | endInSubtree => exact isLocated_toLexError_nil ⟨rfl, by simp⟩
  | endInTag => exact isLocated_toLexError_nil ⟨by simp, .inl rfl⟩
  | endBeforeValue => exact isLocated_toLexError_nil rfl
  | @closingTag depth blanks name rest hblanks hname hrest hend =>
      have htext : '<' :: (blanks ++ '/' :: (name ++ rest)) =
          '<' :: (blanks ++ '/' :: name) ++ rest := by simp
      rw [htext]
      refine isLocated_toLexError _ ⟨?_, .inr ⟨blanks, name, cut_read, hblanks, hname⟩⟩
      rwa [getElem?_unread]
  | @tagName depth blanks rest hblanks hrest hname hslash =>
      refine isLocated_toLexError ('<' :: blanks) ⟨⟨blanks, cut_read, hblanks⟩, ?_⟩
      rw [getElem?_unread]
      exact fun c hc => ⟨fun heq => hslash (heq ▸ hc), hname c hc⟩
  | @tooDeep depth index text htext =>
      obtain ⟨seen, c, rest, rfl, hquote, rfl⟩ :=
        Interpolation.exists_append_of_extentFrom_eq_tooDeep htext
      rw [List.drop_left]
      refine isLocated_toLexError ('{' :: '{' :: seen) ⟨?_, by simp, ?_⟩
      · rw [List.append_assoc, cut_unread]
        rfl
      · rw [getElem?_unread]
        exact ⟨c, rfl, hquote⟩
  | interpolation => exact isLocated_toLexError_nil ⟨rfl, cut_unread 2⟩
  | closingCurly hstrict => exact isLocated_toLexError_nil ⟨rfl, getElem?_unread, hstrict⟩
  | digit hc =>
      refine isLocated_toLexError_nil (.inl ⟨rfl, ?_⟩)
      rw [getElem?_unread]
      exact ⟨_, rfl, .inr hc⟩
  | quote =>
      refine isLocated_toLexError_nil (.inl ⟨rfl, ?_⟩)
      rw [getElem?_unread]
      exact ⟨_, rfl, .inl rfl⟩
  | @reserved depth name blanks rest hname hblanks hstop hrest hequals hreserved =>
      have hne : name ≠ [] := by rintro rfl; revert hreserved; decide
      rw [← List.append_assoc name]
      have hposition : (Failure.toLexError (covered ++ (name ++ blanks ++ rest))
          ⟨.expectedAttributeKey, name ++ blanks ++ rest⟩).position = covered.length := by
        rw [Failure.toLexError, List.length_append, Nat.add_sub_cancel]
      have hconsumed : (covered ++ Fragment.sourceOf [.attributeName name, .blanks blanks]).length =
          covered.length + (name ++ blanks).length := by
        simp [Fragment.sourceOf, Fragment.source]
      rw [LexError.IsLocated, hposition, hconsumed]
      refine .inr ⟨?_, ?_, name, blanks, ?_, ?_, hblanks⟩
      · have hlength := List.length_pos_iff.mpr hne
        rw [List.length_append]
        omega
      · rw [← List.length_append, ← List.append_assoc covered, getElem?_unread]
        exact hequals
      · rw [cut_unread, List.take_left]
      · rw [Step.isReserved, Bool.or_eq_true, beq_iff_eq, beq_iff_eq] at hreserved
        exact hreserved.elim (fun htrue => ⟨true, htrue⟩) fun hfalse => ⟨false, hfalse⟩
  | @tag depth c rest hblank hname hc =>
      refine isLocated_toLexError_nil ⟨?_, .inl rfl⟩
      rw [getElem?_unread]
      rintro ⟨⟩
      simp at hc
  | @tagEnd depth c rest hblank hc =>
      refine isLocated_toLexError_nil ⟨?_, .inl rfl⟩
      rw [getElem?_unread]
      simpa using hc
  | quotedValue => exact isLocated_toLexError_nil ⟨rfl, getElem?_unread⟩
  | @bareValue name depth value source rest hfirst hextent hrefused =>
      have hle : covered.length ≤ (covered ++ source).length := by simp
      have hbeginning : value.IsBeginning
          (Span.cut ⟨covered.length, (covered ++ source).length⟩ (covered ++ source ++ rest)) := by
        rw [cut_read]
        exact BareValue.isBeginning_of_extent hextent
      rcases value with _ | _ | _ <;> exact isLocated_toLexError _ ⟨hle, hbeginning⟩
  | value => exact isLocated_toLexError_nil rfl

/-- Every error stands within the input, at the end of the tokens or behind the beginning of the
construct that it refuses. -/
theorem lex_error_isLocated (lenient : Bool) (input : String) (error : LexError)
    (herror : (lex { lenient } input).error = some error) :
    error.position ≤ input.length ∧
      error.IsLocated lenient input.toList (lex { lenient } input).consumed := by
  rw [lex_markup, lexMarkup_error] at herror
  obtain ⟨failure, hfailure, rfl⟩ := Option.map_eq_some_iff.mp herror
  obtain ⟨before, last, unread, emitted, htrace, hrefusal, hfragments⟩ :=
    exists_refusal_of_run hfailure
  rw [← String.length_toList]
  refine ⟨Nat.sub_le _ _, ?_⟩
  rw [lex_markup, lexMarkup_consumed, hfragments, Fragment.sourceOf_append, htrace.text_eq]
  exact hrefusal.isLocated _

/-- A truth value without a name is noticed behind its own token. -/
theorem lex_error_isLocated_truthValue :
    (lex {} "<a b=\x7b <c faLse />").error = some ⟨.expectedAttributeKey, 10⟩ ∧
      (lex {} "<a b=\x7b <c faLse />").consumed = 16 ∧
      (LexError.mk .expectedAttributeKey 10).IsLocated false "<a b=\x7b <c faLse />".toList
        (lex {} "<a b=\x7b <c faLse />").consumed :=
  have herror : (lex {} "<a b=\x7b <c faLse />").error = some ⟨.expectedAttributeKey, 10⟩ := by
    decide +kernel
  ⟨herror, by decide +kernel, (lex_error_isLocated false _ _ herror).2⟩

end TemplateLexer
