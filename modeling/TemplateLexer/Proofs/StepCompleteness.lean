import TemplateLexer.Proofs.Character
import TemplateLexer.Proofs.StepSoundness

/-! # Productions are steps

The converse of the soundness of steps. The conditions of a production decide the
step, so at most one production applies before any text.
-/

namespace TemplateLexer.Markup

variable {lenient : Bool} {state next : State} {text rest : List Char}
  {emitted : List Fragment} {failure : Failure}

/-- A run of name characters is no run of blanks. -/
theorem AllName.stops_isBlank {name rest : List Char} (hname : AllName name) (hne : name ≠ []) :
    Stops isBlank (name ++ rest) := by
  cases name with
  | nil => exact absurd rfl hne
  | cons c tail =>
      exact stops_cons.mpr (isBlank_eq_false_of_isNameChar (hname c List.mem_cons_self))

/-- A blank before a text leaves the class of names. -/
theorem AllBlank.stops_isNameChar {blanks rest : List Char} (hblanks : AllBlank blanks)
    (hrest : Stops isNameChar rest) : Stops isNameChar (blanks ++ rest) := by
  cases blanks with
  | nil => exact hrest
  | cons c tail =>
      exact stops_cons.mpr (isNameChar_eq_false_of_isBlank (hblanks c List.mem_cons_self))

theorem step_content {depth : Nat} {c : Char} (hc : isBlank c = false) :
    step lenient (.content depth) (c :: rest) = .content lenient depth c rest := by
  simp [step, hc]

theorem step_tag {depth : Nat} {c : Char} (hc : isBlank c = false) :
    step lenient (.tag depth) (c :: rest) = .tag depth c rest := by
  simp [step, hc]

theorem step_tagEnd {depth : Nat} {c : Char} (hc : isBlank c = false) :
    step lenient (.tagEnd depth) (c :: rest) = .tagEnd depth c rest := by
  simp [step, hc]

theorem step_value {name : List Char} {depth : Nat} {c : Char} (hc : isBlank c = false) :
    step lenient (.value name depth) (c :: rest) = .value name depth c rest := by
  simp [step, hc]

/-- A name in a tag is read as the key of an attribute. -/
theorem step_tag_name {depth : Nat} {name : List Char} (hname : AllName name) (hne : name ≠ []) :
    step lenient (.tag depth) (name ++ rest) = .attributeKey depth (name ++ rest) := by
  cases name with
  | nil => exact absurd rfl hne
  | cons c tail =>
      have hc := hname c List.mem_cons_self
      rw [List.cons_append, step_tag (isBlank_eq_false_of_isNameChar hc), Step.tag, if_pos hc]

theorem step_content_slash {depth : Nat} {blanks : List Char} (hblanks : AllBlank blanks) :
    step lenient (.content depth) ('<' :: (blanks ++ '/' :: rest)) =
      .closingTag depth blanks rest := by
  have hslash : Stops isBlank ('/' :: rest) := stops_cons.mpr (by decide)
  rw [step_content (by decide), Step.content, if_pos (by decide), Step.afterLessThan,
    takeWhile_append_of_stops hblanks hslash, dropWhile_append_of_stops hblanks hslash]
  rfl

theorem step_content_name {depth : Nat} {blanks name : List Char} (hblanks : AllBlank blanks)
    (hname : AllName name) (hne : name ≠ []) :
    step lenient (.content depth) ('<' :: (blanks ++ (name ++ rest))) =
      .openingTag depth blanks (name ++ rest) := by
  have hstop : Stops isBlank (name ++ rest) := hname.stops_isBlank hne
  rw [step_content (by decide), Step.content, if_pos (by decide), Step.afterLessThan,
    takeWhile_append_of_stops hblanks hstop, dropWhile_append_of_stops hblanks hstop]
  split
  next heq =>
    cases name with
    | nil => exact absurd rfl hne
    | cons c tail =>
        obtain rfl : c = '/' := (List.cons.inj heq).1
        exact absurd (hname '/' List.mem_cons_self) (by decide)
  next => rfl

theorem step_content_interpolation {depth : Nat} :
    step lenient (.content depth) ('{' :: '{' :: rest) = .interpolation depth rest := by
  rw [step_content (by decide), Step.content, if_neg (by decide), if_pos (by simp)]
  rfl

theorem step_content_word {depth : Nat} {word : List Char} (hne : word ≠ [])
    (hword : Text.wordLength (Step.curlyCloses lenient depth) (word ++ rest) = word.length) :
    step lenient (.content depth) (word ++ rest) =
      .word (Step.curlyCloses lenient depth) depth (word ++ rest) := by
  cases word with
  | nil => exact absurd rfl hne
  | cons c tail =>
      rw [List.cons_append] at hword ⊢
      have hends : Text.endsWord (Step.curlyCloses lenient depth) c (tail ++ rest) = false := by
        rw [Bool.eq_false_iff, ne_eq, ← Text.wordLength_eq_zero_iff, hword]
        simp
      simp only [Text.endsWord, Bool.or_eq_false_iff] at hends
      obtain ⟨⟨⟨hblank, hlt⟩, hcurly⟩, hopens⟩ := hends
      rw [step_content hblank, Step.content, hlt, hopens, hcurly]
      rfl

/-- A truth value does not begin with a digit. -/
theorem head?_not_isDigit_of_isReserved {name : List Char} (h : Step.isReserved name) :
    name.head?.any Char.isDigit = false := by
  cases name with
  | nil => rfl
  | cons c tail =>
      rw [List.head?_cons, Option.any_some, Bool.eq_false_iff]
      intro hdigit
      have hhead : c = 't' ∨ c = 'f' := by
        simp only [Step.isReserved, BareValue.word, List.map_cons, toLower_of_isDigit hdigit,
          Bool.or_eq_true, beq_iff_eq, List.cons.injEq] at h
        exact h.imp And.left And.left
      rcases hhead with rfl | rfl <;> exact absurd hdigit (by decide)

theorem step_value_bare {name : List Char} {depth : Nat} {value : BareValue} {text : List Char}
    (hfirst : text.head?.bind BareValue.ofFirst? = some value) :
    step lenient (.value name depth) text = .bareValue value depth text := by
  cases text with
  | nil => cases hfirst
  | cons c tail =>
      have hvalue : BareValue.ofFirst? c = some value := hfirst
      have hc := BareValue.isNameChar_of_ofFirst? hvalue
      have hquote : c ≠ '"' := by rintro rfl; exact absurd hc (by decide)
      have hcurly : c ≠ '{' := by rintro rfl; exact absurd hc (by decide)
      rw [step_value (isBlank_eq_false_of_isNameChar hc), Step.value,
        if_neg (by simpa using hquote), if_neg (by simpa using hcurly), hvalue]

/-- A production that goes on is the step. -/
theorem Advance.step_eq (h : Advance lenient state text emitted next rest) :
    step lenient state text = .advanced emitted next rest := by
  cases h with
  | blank hc => simp [step, hc]
  | closingTag hblanks hname =>
      have hstop : Stops isNameChar ('>' :: rest) := stops_cons.mpr (by decide)
      rw [step_content_slash hblanks, Step.closingTag, dropWhile_append_of_stops hname hstop,
        takeWhile_append_of_stops hname hstop]
      rfl
  | comment hblanks hbody hend =>
      have hname := Comment.allName_tagName
      rw [step_content_name hblanks hname (by decide), Step.openingTag,
        dropWhile_append_of_stops hname hbody, takeWhile_append_of_stops hname hbody]
      simp [Comment.tail?, hend, show Comment.tagName.isEmpty = false by decide]
  | openingTag hblanks hname hne hrest hcomment =>
      rw [step_content_name hblanks hname hne, Step.openingTag,
        dropWhile_append_of_stops hname hrest, takeWhile_append_of_stops hname hrest]
      simp [hcomment, hne]
  | interpolation hbody =>
      rw [step_content_interpolation, Step.interpolation, hbody]
      simp
  | subtreeEnd => simp [step_content, Step.content, Step.curlyCloses, Step.closingCurly,
      show isBlank '}' = false by decide]
  | word hne hword => rw [step_content_word hne hword, Step.word, hword]; simp
  | flag hname hne hdigit hblanks hstop hrest hequals hreserved =>
      rw [step_tag_name hname hne, Step.attributeKey, takeWhile_append_of_stops hname hstop,
        dropWhile_append_of_stops hname hstop, takeWhile_append_of_stops hblanks hrest,
        dropWhile_append_of_stops hblanks hrest, hdigit, if_neg (by decide)]
      split
      next => exact absurd rfl hequals
      next => rw [if_neg (by simp [hreserved])]
  | key hname hne hdigit hblanks =>
      have hequals : Stops isBlank ('=' :: rest) := stops_cons.mpr (by decide)
      have hstop := hblanks.stops_isNameChar (stops_cons.mpr (by decide) : Stops _ ('=' :: rest))
      rw [step_tag_name hname hne, Step.attributeKey, takeWhile_append_of_stops hname hstop,
        dropWhile_append_of_stops hname hstop, takeWhile_append_of_stops hblanks hequals,
        dropWhile_append_of_stops hblanks hequals, hdigit]
      rfl
  | slash => simp [step_tag, Step.tag, show isBlank '/' = false by decide,
      show isNameChar '/' = false by decide]
  | tagEnd hstate =>
      rcases hstate with rfl | rfl
      · simp [step_tag, Step.tag, Step.tagEnd, show isBlank '>' = false by decide,
          show isNameChar '>' = false by decide]
      · simp [step_tagEnd, Step.tagEnd, show isBlank '>' = false by decide]
  | quotedValue hcontents =>
      rw [step_value (by decide), Step.value, if_pos (by decide), Step.quotedValue, hcontents]
      simp
  | subtree =>
      rw [step_value (by decide), Step.value, if_neg (by decide), if_pos (by decide)]
  | @bareValue name depth value source rest hfirst hextent hcomplete hboundary =>
      have hhead : (source ++ rest).head?.bind BareValue.ofFirst? = some value := by
        cases source with
        | nil => cases hfirst
        | cons c tail => exact hfirst
      rw [step_value_bare hhead, Step.bareValue, hextent, List.take_left, List.drop_left, hcomplete,
        hboundary]
      rfl

/-- A production that refuses is the step. -/
theorem Refusal.step_eq (h : Refusal lenient state text emitted failure) :
    step lenient state text = .failed emitted failure := by
  cases h with
  | endInSubtree => rfl
  | endInTag hstate => rcases hstate with rfl | rfl <;> rfl
  | endBeforeValue => rfl
  | closingTag hblanks hname hrest hend =>
      rw [step_content_slash hblanks, Step.closingTag, dropWhile_append_of_stops hname hrest]
      split
      next => exact absurd rfl hend
      next => rfl
  | @tagName depth blanks rest hblanks hrest hname hslash =>
      rw [step_content (by decide), Step.content, if_pos (by decide), Step.afterLessThan,
        takeWhile_append_of_stops hblanks hrest, dropWhile_append_of_stops hblanks hrest]
      split
      next => exact absurd rfl hslash
      next => simp [Step.openingTag, takeWhile_eq_nil_of_stops hname, Step.refused]
  | tooDeep htext => rw [step_content_interpolation, Step.interpolation, htext]; rfl
  | interpolation htext => rw [step_content_interpolation, Step.interpolation, htext]; rfl
  | closingCurly hstrict =>
      rw [step_content (by decide), Step.content, if_neg (by decide), if_neg (by simp),
        if_pos (by simp [Step.curlyCloses, hstrict])]
      rfl
  | @digit depth c rest hc =>
      have hname := isNameChar_of_isDigit hc
      rw [step_tag (isBlank_eq_false_of_isNameChar hname), Step.tag, if_pos hname,
        Step.attributeKey]
      simp [hname, hc, Step.refused]
  | quote =>
      rw [step_tag (by decide), Step.tag, if_neg (by decide), if_pos (by decide)]
      rfl
  | @reserved depth name blanks rest hname hblanks hstop hrest hequals hreserved =>
      have hne : name ≠ [] := by rintro rfl; revert hreserved; decide
      have hdigit := head?_not_isDigit_of_isReserved hreserved
      rw [step_tag_name hname hne, Step.attributeKey, takeWhile_append_of_stops hname hstop,
        dropWhile_append_of_stops hname hstop, takeWhile_append_of_stops hblanks hrest,
        dropWhile_append_of_stops hblanks hrest, hdigit, if_neg (by decide)]
      split
      next => exact absurd rfl hequals
      next => rw [if_pos hreserved]
  | tag hblank hname hc =>
      simp only [List.mem_cons, List.not_mem_nil, or_false, not_or] at hc
      obtain ⟨hquote, hslash, hend⟩ := hc
      simp [step_tag hblank, Step.tag, Step.tagEnd, hname, hquote, hslash, hend, Step.refused]
  | tagEnd hblank hc => simp [step_tagEnd hblank, Step.tagEnd, hc, Step.refused]
  | quotedValue htext =>
      rw [step_value (by decide), Step.value, if_pos (by decide), Step.quotedValue, htext]
      rfl
  | bareValue hfirst hextent hrefused =>
      rw [step_value_bare hfirst, Step.bareValue, hextent, List.take_left, List.drop_left, hrefused]
      rfl
  | value hblank hquote hcurly hfirst =>
      simp [step_value hblank, Step.value, hquote, hcurly, hfirst, Step.refused]

theorem step_eq_advanced_iff :
    step lenient state text = .advanced emitted next rest ↔
      Advance lenient state text emitted next rest := by
  constructor
  · intro hstep
    have hallowed := step_allowed lenient state text
    rw [hstep] at hallowed
    cases hallowed with
    | advanced h => exact h
  · exact Advance.step_eq

theorem step_eq_failed_iff :
    step lenient state text = .failed emitted failure ↔
      Refusal lenient state text emitted failure := by
  constructor
  · intro hstep
    have hallowed := step_allowed lenient state text
    rw [hstep] at hallowed
    cases hallowed with
    | failed h => exact h
  · exact Refusal.step_eq

theorem step_eq_finished_iff :
    step lenient state text = .finished ↔ state = .content 0 ∧ text = [] := by
  constructor
  · intro hstep
    have hallowed := step_allowed lenient state text
    rw [hstep] at hallowed
    cases hallowed with
    | finished hstate htext => exact ⟨hstate, htext⟩
  · rintro ⟨rfl, rfl⟩
    rfl

/-- A production reads something. -/
theorem Advance.rest_length_lt (h : Advance lenient state text emitted next rest) :
    rest.length < text.length :=
  step_leavesLess lenient state text emitted next rest h.step_eq

end TemplateLexer.Markup
