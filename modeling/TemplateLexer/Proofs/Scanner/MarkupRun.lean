import TemplateLexer.Proofs.Scanner.Logic
import TemplateLexer.Proofs.Scanner.Markup
import TemplateLexer.Proofs.Source

/-! # Scanned pieces of markup

The loops of a scanner measure the extents of the lexer: each of them ends where the
extent of its piece does, and moves over nothing else.
-/

namespace TemplateLexer.Scanner.Markup

open TemplateLexer.Markup Scan

variable {input unread text rest : List Char} {pending : Span.Pending} {nesting : Quote.Nesting}
  {stream : TokenStream}

theorem runs_trySlash (h : '/' :: rest <:+ input) :
    Runs trySlash (facing input ('/' :: rest) pending nesting stream) (.ok true)
      (facing input rest pending nesting stream) :=
  .bind (runs_peek? h) (.bind (runs_next? h).discard (.pure true))

theorem runs_trySlash_of_ne (h : unread <:+ input) (hslash : unread.head? ≠ some '/') :
    Runs trySlash (facing input unread pending nesting stream) (.ok false)
      (facing input unread pending nesting stream) := by
  refine .bind (runs_peek? h) ?_
  rw [if_neg (by simpa using hslash)]
  exact .pure false

/-- Behind something a position is not the first one. -/
theorem position_pos {first : List Char} (h : first ++ rest <:+ input) (hne : first ≠ []) :
    0 < input.length - rest.length := by
  have hlength := h.length_le
  have hpos := List.length_pos_iff.mpr hne
  rw [List.length_append] at hlength
  omega

/-- A name is read to its end. -/
theorem runs_identifier_some {name : List Char} (h : name ++ rest <:+ input)
    (hname : AllName name) (hne : name ≠ []) (hrest : Stops isNameChar rest) :
    Runs identifier (facing input (name ++ rest) {} nesting stream) (.ok (some name))
      (facing input rest {} nesting stream) := by
  have hfirst : (name ++ rest).head?.any isNameChar := by
    cases name with
    | nil => exact absurd rfl hne
    | cons c tail => exact hname c List.mem_cons_self
  refine .bind (runs_peek? h) ?_
  rw [if_pos hfirst]
  refine .bind runs_position (.bind (runs_setStart _) (.bind (runs_skipWhile h hname hrest) ?_))
  refine .bind runs_position (.bind (runs_setStop (position_pos h hne)) ?_)
  exact .bind (runs_cut h) (.pure _)

theorem runs_identifier_none (h : unread <:+ input) (hunread : Stops isNameChar unread) :
    Runs identifier (facing input unread pending nesting stream) (.ok none)
      (facing input unread pending nesting stream) := by
  have hfirst : unread.head?.any isNameChar = false := by
    cases unread with
    | nil => rfl
    | cons c tail => exact stops_cons.mp hunread
  refine .bind (runs_peek? h) ?_
  rw [hfirst]
  exact .pure none

/-- The brackets of a binding are two characters of its name. -/
theorem runs_writeName (name : List Char) :
    Runs (writeName name) (facing input unread pending nesting stream) (.ok ())
      (facing input unread pending nesting (stream.emit (.attributeName name))) := by
  have hbrackets : !AttributeName.isBinding name || 1 ≤ name.length - 1 := by
    cases hbinding : AttributeName.isBinding name with
    | false => rfl
    | true =>
        rw [AttributeName.eq_of_isBinding hbinding]
        simp
  exact .bind (runs_check hbrackets _ _) (runs_emit _)

section Interpolation

variable {opening : Nat} {c : Char} {next : Quote.Nesting}

/-- A character that leaves the body open is read, and the body goes on. -/
theorem runs_interpolationBody_cons {result : Except Stop Unit} {last : Scanner}
    (h : c :: rest <:+ input) (hdepth : nesting.depth ≤ Quote.Nesting.limit)
    (hread : nesting.read c = some next)
    (hopen : (!next.isOpen && c == '}' && rest.head? == some '}') = false)
    (hrest : Runs (interpolationBody opening) (facing input rest pending next stream) result last) :
    Runs (interpolationBody opening) (facing input (c :: rest) pending nesting stream) result
      last := by
  have hunread : rest <:+ input := (List.suffix_cons _ _).trans h
  refine .loop_again (.bind runs_position (.bind (runs_next? h) ?_)) hrest
  refine .bind (runs_readNested _ hdepth hread) (.bind runs_nesting ?_)
  refine .bind (runs_peek? hunread) ?_
  rw [hopen]
  exact .pure _

/-- The closing brackets are read where no string is open. -/
theorem runs_interpolationBody_closed (h : '}' :: '}' :: rest <:+ input)
    (hinside : ('}' :: '}' :: rest).length < input.length)
    (hdepth : nesting.depth ≤ Quote.Nesting.limit) (hopen : nesting.isOpen = false) :
    Runs (interpolationBody opening) (facing input ('}' :: '}' :: rest) pending nesting stream)
      (.ok ())
      (facing input rest
        { pending with stop? := some (input.length - ('}' :: '}' :: rest).length) }
        nesting stream) := by
  have hsecond : '}' :: rest <:+ input := (List.suffix_cons _ _).trans h
  refine .loop_done (.bind runs_position (.bind (runs_next? h) ?_))
  refine .bind (runs_readNested _ hdepth rfl) (.bind runs_nesting ?_)
  refine .bind (runs_peek? hsecond) ?_
  rw [hopen]
  refine .bind (runs_next? hsecond).discard ?_
  exact .bind (runs_setStop (Nat.sub_pos_of_lt hinside)) (.pure _)

theorem runs_interpolationBody_nil :
    Runs (interpolationBody opening) (facing input [] pending nesting stream)
      (.error (.refused { cause := .unterminatedInterpolation, position := opening }))
      (facing input [] pending nesting stream) := by
  exact .loop_stop (.bind runs_position (.bind runs_next?_nil (runs_refuse _ _ _)))

theorem runs_interpolationBody_tooDeep (h : c :: rest <:+ input)
    (hdepth : nesting.depth ≤ Quote.Nesting.limit) (hread : nesting.read c = none) :
    Runs (interpolationBody opening) (facing input (c :: rest) pending nesting stream)
      (.error (.refused
        { cause := .quoteDepthExceeded, position := input.length - (c :: rest).length }))
      (facing input rest pending nesting stream) := by
  refine .loop_stop (.bind runs_position (.bind (runs_next? h) ?_))
  exact .bind_stop (runs_readNested_tooDeep _ hdepth hread)

/-- What a scanner does with the body of an interpolation of a given extent. -/
def RunsBody (input text : List Char) (opening : Nat) (pending : Span.Pending)
    (nesting : Quote.Nesting) (stream : TokenStream) : Interpolation.Extent → Prop
  | .closed length => ∃ last,
      Runs (interpolationBody opening) (facing input text pending nesting stream) (.ok ())
        (facing input (text.drop (length + 2))
          { pending with stop? := some (input.length - (text.drop length).length) } last stream)
  | .tooDeep index => ∃ last, last.stream = stream ∧
      Runs (interpolationBody opening) (facing input text pending nesting stream)
        (.error (.refused
          { cause := .quoteDepthExceeded, position := input.length - (text.drop index).length }))
        last
  | .unclosed => ∃ last, last.stream = stream ∧
      Runs (interpolationBody opening) (facing input text pending nesting stream)
        (.error (.refused { cause := .unterminatedInterpolation, position := opening })) last

/-- The body of an interpolation is read up to its extent. -/
theorem runs_interpolationBody (h : text <:+ input) (hinside : text.length < input.length)
    (hdepth : nesting.depth ≤ Quote.Nesting.limit) :
    RunsBody input text opening pending nesting stream
      (Interpolation.extentFrom nesting text) := by
  induction text generalizing nesting with
  | nil => exact ⟨_, rfl, runs_interpolationBody_nil⟩
  | cons c rest ih =>
      have hrest : rest <:+ input := (List.suffix_cons _ _).trans h
      rw [Interpolation.extentFrom]
      -- A character that is read keeps the number of open strings within the limit.
      rcases Quote.Nesting.read_cases hdepth c with ⟨next, hread, _, hnext⟩ | ⟨hread, _⟩
      · rw [hread]
        dsimp only
        split
        next hcloses =>
          simp only [Bool.and_eq_true, Bool.not_eq_true', beq_iff_eq] at hcloses
          obtain ⟨⟨hopen, rfl⟩, hhead⟩ := hcloses
          obtain ⟨tail, rfl⟩ := List.head?_eq_some_iff.mp hhead
          obtain rfl : nesting = next := Option.some.inj hread
          exact ⟨_, runs_interpolationBody_closed h hinside hdepth hopen⟩
        next hgoes =>
          rw [Bool.not_eq_true] at hgoes
          have hbody := ih hrest (Nat.lt_of_succ_lt hinside) hnext
          cases hextent : Interpolation.extentFrom next rest with
          | closed length =>
              rw [hextent] at hbody
              obtain ⟨last, hbody⟩ := hbody
              exact ⟨last, runs_interpolationBody_cons h hdepth hread hgoes hbody⟩
          | tooDeep index =>
              rw [hextent] at hbody
              obtain ⟨last, hstream, hbody⟩ := hbody
              exact ⟨last, hstream, runs_interpolationBody_cons h hdepth hread hgoes hbody⟩
          | unclosed =>
              rw [hextent] at hbody
              obtain ⟨last, hstream, hbody⟩ := hbody
              exact ⟨last, hstream, runs_interpolationBody_cons h hdepth hread hgoes hbody⟩
      · rw [hread]
        exact ⟨_, rfl, runs_interpolationBody_tooDeep h hdepth hread⟩

end Interpolation

section Comments

/-- The end of a comment is sought through the first terminator. -/
theorem runs_seekCommentEnd (h : text <:+ input) :
    Runs seekCommentEnd (facing input text pending nesting stream)
      (.ok (Comment.lengthThroughEnd? text).isSome)
      (facing input (text.drop ((Comment.lengthThroughEnd? text).getD text.length)) pending nesting
        stream) := by
  induction text with
  | nil =>
      exact .loop_done (.bind (runs_atEnd h) (.pure _))
  | cons c rest ih =>
      have hrest : rest <:+ input := (List.suffix_cons _ _).trans h
      rw [Comment.lengthThroughEnd?]
      split
      next hbegins =>
        refine .loop_done (.bind (runs_atEnd h) (.bind (runs_startsWith h _) ?_))
        rw [if_pos hbegins]
        obtain ⟨after, hafter⟩ := List.isPrefixOf_iff_prefix.mp hbegins
        rw [← hafter] at h ⊢
        rw [Option.getD_some, List.drop_left]
        exact .bind (runs_skip h (by decide)) (.pure _)
      next hgoes =>
        have hstep : Runs seekStep (facing input (c :: rest) pending nesting stream)
            (.ok (.again ())) (facing input rest pending nesting stream) := by
          refine .bind (runs_atEnd h) (.bind (runs_startsWith h _) ?_)
          rw [if_neg hgoes]
          exact .bind (runs_next? h).discard (.pure _)
        have hseek := ih hrest
        cases hend : Comment.lengthThroughEnd? rest with
        | none =>
            rw [hend] at hseek
            exact .loop_again hstep hseek
        | some length =>
            rw [hend] at hseek
            exact .loop_again hstep hseek

/-- A comment is read through its end, and of any other tag nothing is read. -/
theorem runs_tryCommentEnd (name : List Char) (h : text <:+ input) :
    Runs (tryCommentEnd name) (facing input text pending nesting stream)
      (.ok (Comment.tail? name text).isSome)
      (facing input (text.drop ((Comment.tail? name text).getD 0)) pending nesting stream) := by
  unfold tryCommentEnd Comment.tail?
  by_cases hname : name = Comment.tagName
  · rw [if_pos (by simpa using hname), if_pos hname]
    refine .bind runs_position (.bind (runs_seekCommentEnd h) ?_)
    cases hend : Comment.lengthThroughEnd? text with
    | none => exact .bind (runs_rewind text) (.pure false)
    | some length => exact .pure true
  · rw [if_neg (by simpa using hname), if_neg hname]
    exact .pure false

end Comments

section QuotedValues

/-- The length of the contents of a quoted value, given the character before them. -/
def contentsAfter? (prior : Option Char) : List Char → Option Nat
  | [] => none
  | c :: rest =>
    if c == '"' && prior != some '\\' then some 0 else (contentsAfter? (some c) rest).map (· + 1)

/-- The character before a text matters only if it is a backslash and a quote follows. -/
theorem contentsAfter?_eq (prior : Option Char) (text : List Char)
    (h : prior = some '\\' → text.head? ≠ some '"') :
    contentsAfter? prior text = QuotedValue.contentsLength? text := by
  fun_induction QuotedValue.contentsLength? text generalizing prior with
  | case1 => rfl
  | case2 rest =>
      rw [contentsAfter?, if_pos]
      simpa using fun hprior => h hprior rfl
  | case3 rest ih =>
      have hrest := ih (some '"') (by simp)
      simp [contentsAfter?, hrest, Option.map_map, Function.comp_def]
  | case4 c rest hquote hprotected ih =>
      have hc : ¬ (c == '"' && prior != some '\\') := fun hends => by
        exact hquote (eq_of_beq (Bool.and_eq_true_iff.mp hends).1)
      have hrest := ih (some c) (fun hbackslash hhead => by
        obtain ⟨tail, rfl⟩ := List.head?_eq_some_iff.mp hhead
        exact hprotected tail (Option.some.inj hbackslash) rfl)
      rw [contentsAfter?, if_neg hc, hrest]

theorem runs_quotedStep {opening : Nat} {prior : Option Char} {c : Char}
    {progress : Progress (Option Char) Unit} (h : c :: rest <:+ input)
    (hprogress : (if c == '"' && prior != some '\\' then .done () else .again (some c)) =
      progress) :
    Runs (quotedStep opening prior) (facing input (c :: rest) pending nesting stream)
      (.ok progress) (facing input rest pending nesting stream) := by
  subst hprogress
  refine .bind (runs_next? h) ?_
  dsimp only
  split
  next => exact .pure _
  next => exact .pure _

theorem runs_quotedTail {opening length : Nat} {prior : Option Char} (h : text <:+ input)
    (hlength : contentsAfter? prior text = some length) :
    Runs (quotedTail opening prior) (facing input text pending nesting stream) (.ok ())
      (facing input (text.drop (length + 1)) pending nesting stream) := by
  induction text generalizing prior length with
  | nil => cases hlength
  | cons c rest ih =>
      rw [contentsAfter?] at hlength
      split at hlength
      next hends =>
        obtain rfl := Option.some.inj hlength
        exact .loop_done (runs_quotedStep h (if_pos hends))
      next hgoes =>
        obtain ⟨tail, htail, rfl⟩ := Option.map_eq_some_iff.mp hlength
        exact .loop_again (runs_quotedStep h (if_neg hgoes))
          (ih ((List.suffix_cons _ _).trans h) htail)

theorem runs_quotedTail_none {opening : Nat} {prior : Option Char} (h : text <:+ input)
    (hlength : contentsAfter? prior text = none) :
    Runs (quotedTail opening prior) (facing input text pending nesting stream)
      (.error (.refused { cause := .unterminatedString, position := opening }))
      (facing input [] pending nesting stream) := by
  induction text generalizing prior with
  | nil =>
      exact .loop_stop (.bind runs_next?_nil (runs_refuse _ _ _))
  | cons c rest ih =>
      rw [contentsAfter?] at hlength
      split at hlength
      next => cases hlength
      next hgoes =>
        exact .loop_again (runs_quotedStep h (if_neg hgoes))
          (ih ((List.suffix_cons _ _).trans h) (Option.map_eq_none_iff.mp hlength))

end QuotedValues

section BareValues

theorem runs_atBoundary (h : text <:+ input) :
    Runs atBoundary (facing input text pending nesting stream) (.ok (BareValue.atBoundary text))
      (facing input text pending nesting stream) := by
  refine .bind (runs_peek? h) ?_
  cases text with
  | nil => exact .pure _
  | cons c rest => exact .pure _

/-- A word is read as far as it is spelled, and it is refused if that is not to its
end. -/
theorem runs_spellWord (cause : LexError.Cause) (word : List Char) (h : text <:+ input) :
    Runs (spellWord cause word) (facing input text pending nesting stream)
      (if BareValue.spelled word text = word.length then .ok ()
      else .error (.refused
        { cause, position := input.length - (text.drop (BareValue.spelled word text)).length }))
      (facing input (text.drop (BareValue.spelled word text)) pending nesting stream) := by
  induction word generalizing text with
  | nil => exact .pure ()
  | cons expected word ih =>
      cases text with
      | nil => exact .bind (runs_peek? h) (.bind runs_position (runs_refuse _ _ _))
      | cons c rest =>
          have hrest : rest <:+ input := (List.suffix_cons _ _).trans h
          refine .bind (runs_peek? h) ?_
          rw [BareValue.spelled]
          by_cases hspelled : (c :: rest).head?.any (·.toLower == expected)
          · have hc : c.toLower == expected := hspelled
            rw [if_pos hspelled, if_pos hc]
            refine .bind (runs_next? h).discard ?_
            simp only [List.length_cons, Nat.add_right_cancel_iff, List.drop_succ_cons]
            exact ih hrest
          · have hc : ¬ (c.toLower == expected) := hspelled
            rw [if_neg hspelled, if_neg hc]
            exact .bind runs_position (runs_refuse _ _ _)

/-- The digits of a number value are read one by one. -/
theorem runs_numberTail_digits {digits : List Char} (hdigits : ∀ c ∈ digits, c.isDigit)
    (h : digits ++ rest <:+ input) {hadPoint hadDigit : Bool} {result : Except Stop Bool}
    {last : Scanner}
    (htail : Runs (numberTail hadPoint (hadDigit || !digits.isEmpty))
      (facing input rest pending nesting stream) result last) :
    Runs (numberTail hadPoint hadDigit) (facing input (digits ++ rest) pending nesting stream)
      result last := by
  induction digits generalizing hadDigit with
  | nil => simpa using htail
  | cons c tail ih =>
      have hrest : tail ++ rest <:+ input := (List.suffix_cons _ _).trans h
      have hc : c.isDigit := hdigits c List.mem_cons_self
      have htail : Runs (numberTail hadPoint (true || !tail.isEmpty))
          (facing input rest pending nesting stream) result last := by simpa using htail
      refine .loop_again (.bind (runs_peek? h) ?_)
        (ih (fun d hd => hdigits d (List.mem_cons_of_mem _ hd)) hrest htail)
      dsimp only [List.cons_append, List.head?_cons]
      rw [if_pos hc]
      exact .bind (runs_next? h).discard (.pure _)

/-- What follows the digits decides what becomes of a number. -/
theorem runs_numberTail_end {hadPoint hadDigit : Bool} (h : rest <:+ input)
    (hdigit : Stops Char.isDigit rest) (hpoint : rest.head? ≠ some '.') :
    Runs (numberTail hadPoint hadDigit) (facing input rest pending nesting stream) (.ok hadDigit)
      (facing input rest pending nesting stream) := by
  refine .loop_done (.bind (runs_peek? h) ?_)
  cases rest with
  | nil => exact .pure _
  | cons c tail =>
      have hc : (c == '.') = false := by simpa using hpoint
      have hnot : c.isDigit = false := stops_cons.mp hdigit
      simp only [List.head?_cons, hnot, hc, Bool.false_and, Bool.false_eq_true, if_false]
      exact .pure _

theorem runs_numberTail_point {hadDigit : Bool} {result : Except Stop Bool} {last : Scanner}
    (h : '.' :: rest <:+ input)
    (htail : Runs (numberTail true hadDigit) (facing input rest pending nesting stream) result
      last) :
    Runs (numberTail false hadDigit) (facing input ('.' :: rest) pending nesting stream) result
      last := by
  refine .loop_again (.bind (runs_peek? h) ?_) htail
  exact .bind (runs_next? h).discard (.pure _)

theorem runs_numberTail_secondPoint {hadDigit : Bool} (h : '.' :: rest <:+ input) :
    Runs (numberTail true hadDigit) (facing input ('.' :: rest) pending nesting stream)
      (.error (.refused
        { cause := .malformedNumber, position := input.length - ('.' :: rest).length }))
      (facing input ('.' :: rest) pending nesting stream) := by
  refine .loop_stop (.bind (runs_peek? h) ?_)
  exact .bind runs_position (runs_refuse _ _ _)

/-- A number is read as far as it extends, and a second point behind it is refused. -/
theorem runs_numberTail (h : text <:+ input) :
    Runs (numberTail false false) (facing input text pending nesting stream)
      (if (text.drop (BareValue.unsignedLength text)).head? = some '.' then .error (.refused
        { cause := .malformedNumber
          position := input.length - (text.drop (BareValue.unsignedLength text)).length })
      else .ok ((text.take (BareValue.unsignedLength text)).any Char.isDigit))
      (facing input (text.drop (BareValue.unsignedLength text)) pending nesting stream) := by
  obtain ⟨whole, after, rfl, hwhole, hafter⟩ := exists_maximalRun Char.isDigit text
  have hunread : after <:+ input := (List.suffix_append _ _).trans h
  have hany : ∀ digits : List Char, (∀ c ∈ digits, c.isDigit) →
      digits.any Char.isDigit = !digits.isEmpty := fun digits hdigits => by
    cases digits with
    | nil => rfl
    | cons c tail => simp [hdigits c List.mem_cons_self]
  -- With a point the tail goes on through the digits behind it, and may find another one.
  by_cases hpoint : after.head? = some '.'
  · obtain ⟨rest, rfl⟩ := List.head?_eq_some_iff.mp hpoint
    obtain ⟨fraction, rest, rfl, hfraction, hrest⟩ := exists_maximalRun Char.isDigit rest
    have hplaces : fraction ++ rest <:+ input := (List.suffix_cons _ _).trans hunread
    have hend : rest <:+ input := (List.suffix_append _ _).trans hplaces
    have htext : whole ++ '.' :: (fraction ++ rest) = (whole ++ '.' :: fraction) ++ rest := by simp
    rw [BareValue.unsignedLength_fraction hwhole hfraction hrest]
    refine runs_numberTail_digits hwhole h (runs_numberTail_point hunread ?_)
    apply runs_numberTail_digits hfraction hplaces
    rw [htext, List.drop_left, List.take_left]
    split
    next hsecond =>
      obtain ⟨more, rfl⟩ := List.head?_eq_some_iff.mp hsecond
      exact runs_numberTail_secondPoint hend
    next hsecond =>
      have hdigit : (whole ++ '.' :: fraction).any Char.isDigit =
          (false || !whole.isEmpty || !fraction.isEmpty) := by
        rw [List.any_append, List.any_cons, hany whole hwhole, hany fraction hfraction]
        rfl
      rw [hdigit]
      exact runs_numberTail_end hend hrest hsecond
  · rw [BareValue.unsignedLength_whole hwhole hafter hpoint, List.drop_left, List.take_left,
      if_neg hpoint, hany whole hwhole]
    exact runs_numberTail_digits hwhole h (runs_numberTail_end hunread hafter hpoint)

end BareValues

end TemplateLexer.Scanner.Markup
