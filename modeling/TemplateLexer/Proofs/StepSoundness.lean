import TemplateLexer.Proofs.Production

/-! # Steps follow the productions

Every step is one of the productions: it finishes only at the end of the input
outside of all subtrees, and otherwise reads or refuses what a production says.
-/

namespace TemplateLexer.Markup

/-- What a step may be from a state before a text. -/
inductive Step.Allowed (lenient : Bool) (state : State) (text : List Char) : Step → Prop where
  | finished (hstate : state = .content 0) (htext : text = []) :
      Allowed lenient state text .finished
  | failed {emitted : List Fragment} {failure : Failure}
      (h : Refusal lenient state text emitted failure) :
      Allowed lenient state text (.failed emitted failure)
  | advanced {emitted : List Fragment} {next : State} {rest : List Char}
      (h : Advance lenient state text emitted next rest) :
      Allowed lenient state text (.advanced emitted next rest)

namespace Step

variable {lenient : Bool}

theorem closingTag_allowed (depth : Nat) {blanks : List Char} (hblanks : AllBlank blanks)
    (text : List Char) :
    Allowed lenient (.content depth) ('<' :: (blanks ++ '/' :: text))
      (closingTag depth blanks text) := by
  obtain ⟨name, rest, rfl, hname, hrest⟩ := exists_maximalRun isNameChar text
  unfold closingTag
  rw [dropWhile_append_of_stops hname hrest, takeWhile_append_of_stops hname hrest]
  split
  next => exact .advanced (.closingTag hblanks hname)
  next hend =>
    refine .failed (.closingTag hblanks hname hrest fun hhead => ?_)
    obtain ⟨after, hafter⟩ := List.head?_eq_some_iff.mp hhead
    exact hend after hafter

theorem openingTag_allowed (depth : Nat) {blanks text : List Char} (hblanks : AllBlank blanks)
    (htext : Stops isBlank text) (hslash : text.head? ≠ some '/') :
    Allowed lenient (.content depth) ('<' :: (blanks ++ text)) (openingTag depth blanks text) := by
  obtain ⟨name, rest, rfl, hname, hrest⟩ := exists_maximalRun isNameChar text
  unfold openingTag
  rw [dropWhile_append_of_stops hname hrest, takeWhile_append_of_stops hname hrest]
  dsimp only
  split
  next hempty =>
    obtain rfl := List.isEmpty_iff.mp hempty
    exact .failed (.tagName hblanks htext hrest hslash)
  next hne =>
    rw [List.isEmpty_iff] at hne
    split
    next tail htail =>
      obtain ⟨rfl, hend⟩ : name = Comment.tagName ∧
          Comment.lengthThroughEnd? rest = some tail := by
        simpa [Comment.tail?] using htail
      obtain ⟨inside, after, rfl, rfl⟩ := Comment.exists_append_of_lengthThroughEnd? hend
      rw [List.take_left, List.drop_left]
      exact .advanced (.comment hblanks hrest hend)
    next hnone => exact .advanced (.openingTag hblanks hname hne hrest hnone)

theorem afterLessThan_allowed (depth : Nat) (text : List Char) :
    Allowed lenient (.content depth) ('<' :: text) (afterLessThan depth text) := by
  obtain ⟨blanks, rest, rfl, hblanks, hrest⟩ := exists_maximalRun isBlank text
  unfold afterLessThan
  rw [dropWhile_append_of_stops hblanks hrest, takeWhile_append_of_stops hblanks hrest]
  dsimp only
  split
  next => exact closingTag_allowed depth hblanks _
  next hslash =>
    apply openingTag_allowed depth hblanks hrest
    intro hhead
    obtain ⟨after, hafter⟩ := List.head?_eq_some_iff.mp hhead
    exact hslash after hafter

theorem interpolation_allowed (depth : Nat) (text : List Char) :
    Allowed lenient (.content depth) ('{' :: '{' :: text) (interpolation depth text) := by
  unfold interpolation
  split
  next length hclosed =>
    obtain ⟨body, rest, rfl, rfl⟩ :=
      Interpolation.exists_append_of_extentFrom_eq_closed hclosed
    have hdrop : (body ++ '}' :: '}' :: rest).drop (body.length + 2) = rest := by simp
    rw [List.take_left, hdrop]
    exact .advanced (.interpolation hclosed)
  next index hdeep => exact .failed (.tooDeep hdeep)
  next hunclosed => exact .failed (.interpolation hunclosed)

theorem closingCurly_allowed {depth : Nat} (hcloses : curlyCloses lenient depth)
    (rest : List Char) :
    Allowed lenient (.content depth) ('}' :: rest) (closingCurly depth rest) := by
  cases depth with
  | zero => exact .failed (.closingCurly (by simpa [curlyCloses] using hcloses))
  | succ outer => exact .advanced .subtreeEnd

theorem word_allowed {depth : Nat} {c : Char} {rest : List Char}
    (hword : Text.endsWord (curlyCloses lenient depth) c rest = false) :
    Allowed lenient (.content depth) (c :: rest)
      (word (curlyCloses lenient depth) depth (c :: rest)) := by
  have hpos := Text.wordLength_pos hword
  have hle := Text.wordLength_le (curlyCloses lenient depth) (c :: rest)
  unfold word
  generalize htext : c :: rest = text at hpos hle ⊢
  generalize hlength : Text.wordLength (curlyCloses lenient depth) text = length at hpos hle ⊢
  -- The production is stated for a text in two parts, so the text is cut at the word's end.
  have htake : (text.take length).length = length := List.length_take_of_le hle
  have hne : text.take length ≠ [] := List.length_pos_iff.mp (by rwa [htake])
  have hadvance : Advance lenient (.content depth) (text.take length ++ text.drop length)
      [.text (text.take length)] (.content depth) (text.drop length) :=
    .word hne (by rw [List.take_append_drop, htake, hlength])
  rw [List.take_append_drop] at hadvance
  exact .advanced hadvance

theorem content_allowed {depth : Nat} {c : Char} {rest : List Char}
    (hc : isBlank c = false) :
    Allowed lenient (.content depth) (c :: rest) (content lenient depth c rest) := by
  unfold content
  split
  next hlt =>
    obtain rfl : c = '<' := by simpa using hlt
    exact afterLessThan_allowed depth rest
  next hlt =>
    split
    next hopens =>
      obtain ⟨rfl, hhead⟩ : c = '{' ∧ rest.head? = some '{' := by simpa using hopens
      obtain ⟨after, rfl⟩ := List.head?_eq_some_iff.mp hhead
      exact interpolation_allowed depth after
    next hopens =>
      split
      next hcloses =>
        obtain ⟨rfl, hcurly⟩ : c = '}' ∧ curlyCloses lenient depth := by simpa using hcloses
        exact closingCurly_allowed hcurly rest
      next hcloses =>
        apply word_allowed
        simp only [Text.endsWord, hc, Bool.false_or]
        simp_all

theorem attributeKey_allowed (depth : Nat) {c : Char} (rest : List Char) (hc : isNameChar c) :
    Allowed lenient (.tag depth) (c :: rest) (attributeKey depth (c :: rest)) := by
  obtain ⟨name, afterName, htext, hname, hafter⟩ := exists_maximalRun isNameChar (c :: rest)
  obtain ⟨blanks, after, rfl, hblanks, hrest⟩ := exists_maximalRun isBlank afterName
  have hne : name ≠ [] := by
    rintro rfl
    rw [List.nil_append] at htext
    rw [← htext, stops_cons, hc] at hafter
    cases hafter
  unfold attributeKey
  rw [htext, takeWhile_append_of_stops hname hafter, dropWhile_append_of_stops hname hafter]
  dsimp only
  rw [takeWhile_append_of_stops hblanks hrest, dropWhile_append_of_stops hblanks hrest]
  split
  next hdigit =>
    cases name with
    | nil => exact absurd rfl hne
    | cons first tail => exact .failed (.digit (by simpa using hdigit))
  next hdigit =>
    rw [Bool.not_eq_true] at hdigit
    split
    next => exact .advanced (.key hname hne hdigit hblanks)
    next hequals =>
      have hhead : after.head? ≠ some '=' := fun hhead =>
        (List.head?_eq_some_iff.mp hhead).elim hequals
      split
      next hreserved =>
        exact .failed (.reserved hname hblanks hafter hrest hhead hreserved)
      next hreserved =>
        exact .advanced
          (.flag hname hne hdigit hblanks hafter hrest hhead (by simpa using hreserved))

theorem tag_allowed (depth : Nat) {c : Char} (rest : List Char) (hc : isBlank c = false) :
    Allowed lenient (.tag depth) (c :: rest) (tag depth c rest) := by
  unfold tag tagEnd
  split
  next hname => exact attributeKey_allowed depth rest hname
  next hname =>
    split
    next hquote =>
      obtain rfl : c = '"' := by simpa using hquote
      exact .failed .quote
    next hquote =>
      split
      next hslash =>
        obtain rfl : c = '/' := by simpa using hslash
        exact .advanced .slash
      next hslash =>
        split
        next hend =>
          obtain rfl : c = '>' := by simpa using hend
          exact .advanced (.tagEnd (.inl rfl))
        next hend => exact .failed (.tag hc (by simpa using hname) (by simp_all))

theorem tagEnd_allowed (depth : Nat) {c : Char} (rest : List Char) (hc : isBlank c = false) :
    Allowed lenient (.tagEnd depth) (c :: rest) (tagEnd depth c rest) := by
  unfold tagEnd
  split
  next hend =>
    obtain rfl : c = '>' := by simpa using hend
    exact .advanced (.tagEnd (.inr rfl))
  next hend => exact .failed (.tagEnd hc (by simpa using hend))

theorem quotedValue_allowed (name : List Char) (depth : Nat) (text : List Char) :
    Allowed lenient (.value name depth) ('"' :: text) (quotedValue name depth text) := by
  unfold quotedValue
  split
  next length hlength =>
    obtain ⟨contents, rest, rfl, rfl⟩ := QuotedValue.exists_append_of_contentsLength? hlength
    have hdrop : (contents ++ '"' :: rest).drop (contents.length + 1) = rest := by simp
    rw [List.take_left, hdrop]
    exact .advanced (.quotedValue hlength)
  next hnone => exact .failed (.quotedValue hnone)

theorem bareValue_allowed (name : List Char) (depth : Nat) {bare : BareValue} {text : List Char}
    (hfirst : text.head?.bind BareValue.ofFirst? = some bare) :
    Allowed lenient (.value name depth) text (bareValue bare depth text) := by
  obtain ⟨source, rest, rfl, hextent⟩ : ∃ source rest, text = source ++ rest ∧
      bare.extent text = source.length :=
    ⟨_, _, (List.take_append_drop (bare.extent text) text).symm,
      (List.length_take_of_le (bare.extent_le text)).symm⟩
  unfold bareValue
  rw [hextent, List.take_left, List.drop_left]
  dsimp only
  split
  next haccepted =>
    obtain ⟨hcomplete, hboundary⟩ := Bool.and_eq_true_iff.mp haccepted
    have hhead : source.head?.bind BareValue.ofFirst? = some bare := by
      cases source with
      | nil => exact absurd rfl (BareValue.ne_nil_of_isComplete hcomplete)
      | cons c tail => simpa using hfirst
    exact .advanced (.bareValue hhead hextent hcomplete hboundary)
  next hrefused => exact .failed (.bareValue hfirst hextent (by simpa using hrefused))

theorem value_allowed (name : List Char) (depth : Nat) {c : Char} (rest : List Char)
    (hc : isBlank c = false) :
    Allowed lenient (.value name depth) (c :: rest) (value name depth c rest) := by
  unfold value
  split
  next hquote =>
    obtain rfl : c = '"' := by simpa using hquote
    exact quotedValue_allowed name depth rest
  next hquote =>
    split
    next hcurly =>
      obtain rfl : c = '{' := by simpa using hcurly
      exact .advanced .subtree
    next hcurly =>
      split
      next bare hbare => exact bareValue_allowed name depth (by simpa using hbare)
      next hnone => exact .failed (.value hc (by simpa using hquote) (by simpa using hcurly) hnone)

end Step

/-- Every step is one of the productions. -/
theorem step_allowed (lenient : Bool) (state : State) (text : List Char) :
    Step.Allowed lenient state text (step lenient state text) := by
  cases text with
  | nil =>
      rcases state with ⟨_ | _⟩ | depth | depth | ⟨name, depth⟩
      · exact .finished rfl rfl
      · exact .failed .endInSubtree
      · exact .failed (.endInTag (.inl rfl))
      · exact .failed (.endInTag (.inr rfl))
      · exact .failed .endBeforeValue
  | cons c rest =>
      simp only [step]
      split
      next hc => exact .advanced (.blank hc)
      next hc =>
        rw [Bool.not_eq_true] at hc
        cases state with
        | content depth => exact Step.content_allowed hc
        | tag depth => exact Step.tag_allowed depth rest hc
        | tagEnd depth => exact Step.tagEnd_allowed depth rest hc
        | value name depth => exact Step.value_allowed name depth rest hc

end TemplateLexer.Markup
