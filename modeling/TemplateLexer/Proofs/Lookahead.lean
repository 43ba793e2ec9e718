import TemplateLexer.Proofs.Tiling

/-! # What the lexer looks at behind a construct

Where a construct ends is decided by its own characters and by the first one
behind it, so what follows can be exchanged for any text that begins alike. Two
constructs see more: a word ends before two curly brackets, and an opening tag
named like a comment is one only if no end of a comment follows anywhere.
-/

namespace TemplateLexer

/-- The text is empty or begins with the same character as another one. -/
def BeginsAs (other text : List Char) : Prop := ∀ c ∈ other.head?, c ∈ text.head?

namespace BeginsAs

variable {other rest : List Char}

theorem of_isPrefix (h : other <+: rest) : BeginsAs other rest := by
  obtain ⟨more, rfl⟩ := h
  cases other with
  | nil => exact nofun
  | cons c tail => exact fun _ hc => hc

/-- What goes on begins as before, unless there was nothing. -/
theorem append_right (hne : rest ≠ []) (more : List Char) : BeginsAs (rest ++ more) rest := by
  cases rest with
  | nil => exact absurd rfl hne
  | cons c tail => exact fun _ hc => hc

theorem append_left (h : BeginsAs other rest) (run : List Char) :
    BeginsAs (run ++ other) (run ++ rest) := by
  cases run with
  | nil => exact h
  | cons c tail => exact fun _ hc => hc

theorem stops {p : Char → Bool} (h : BeginsAs other rest) (hrest : Stops p rest) :
    Stops p other := fun c hc => hrest c (h c hc)

theorem any_eq_false {p : Char → Bool} (h : BeginsAs other rest)
    (hrest : rest.head?.any p = false) : other.head?.any p = false := by
  rw [Bool.eq_false_iff] at hrest ⊢
  intro hany
  obtain ⟨c, hc, hp⟩ := (Option.any_eq_true _ _).mp hany
  exact hrest ((Option.any_eq_true _ _).mpr ⟨c, h c hc, hp⟩)

theorem head?_ne {c : Char} (h : BeginsAs other rest) (hne : rest.head? ≠ some c) :
    other.head? ≠ some c := fun hc => hne (h c hc)

theorem atBoundary (h : BeginsAs other rest) (hrest : Markup.BareValue.atBoundary rest) :
    Markup.BareValue.atBoundary other := by
  cases other with
  | nil => rfl
  | cons c tail =>
      obtain ⟨after, rfl⟩ := List.head?_eq_some_iff.mp (h c rfl)
      exact hrest

end BeginsAs

namespace Markup

namespace Comment

variable {body rest : List Char}

theorem terminator_length_le (h : lengthThroughEnd? (body ++ rest) = some body.length) :
    terminator.length ≤ body.length := by
  obtain ⟨inside, after, _, hlength⟩ := exists_append_of_lengthThroughEnd? h
  rw [← hlength, List.length_append]
  omega

/-- A comment that ends does so whatever is behind its end. -/
theorem lengthThroughEnd?_exchange (h : lengthThroughEnd? (body ++ rest) = some body.length)
    (other : List Char) : lengthThroughEnd? (body ++ other) = some body.length := by
  obtain ⟨inside, after, htext, hlength⟩ := exists_append_of_lengthThroughEnd? h
  obtain ⟨rfl, rfl⟩ := List.append_inj htext hlength.symm
  exact lengthThroughEnd?_eq_iff.mpr (lengthThroughEnd?_eq_iff.mp h)

/-- No beginning of a text without the end of a comment has one. -/
theorem lengthThroughEnd?_eq_none_of_isPrefix {text before : List Char} (hbefore : before <+: text)
    (h : lengthThroughEnd? text = none) : lengthThroughEnd? before = none := by
  obtain ⟨more, rfl⟩ := hbefore
  by_contra hsome
  obtain ⟨length, hlength⟩ := Option.ne_none_iff_exists'.mp hsome
  obtain ⟨inside, after, rfl, rfl⟩ := exists_append_of_lengthThroughEnd? hlength
  rw [List.append_assoc, lengthThroughEnd?_exchange hlength] at h
  cases h

/-- A character that no terminator contains makes none in a text when it is put into it. -/
theorem lengthThroughEnd?_insert {front back : List Char} {c : Char} (hc : c ∉ terminator)
    (h : lengthThroughEnd? (front ++ back) = none) :
    lengthThroughEnd? (front ++ c :: back) = none := by
  induction front with
  | nil =>
      have hbegins : ¬ terminator.isPrefixOf (c :: back) := by
        rw [List.isPrefixOf_iff_prefix]
        rintro ⟨after, heq⟩
        obtain rfl : '-' = c := (List.cons.inj heq).1
        exact hc (by decide)
      rw [List.nil_append, lengthThroughEnd?, if_neg hbegins]
      exact congrArg (Option.map (· + 1)) h
  | cons d front ih =>
      rw [List.cons_append, lengthThroughEnd?] at h
      split at h
      next => cases h
      next hnone =>
        have hbegins : ¬ terminator.isPrefixOf (d :: (front ++ c :: back)) := by
          rw [List.isPrefixOf_iff_prefix] at hnone ⊢
          rintro ⟨after, heq⟩
          rw [← List.cons_append] at heq hnone
          rcases List.append_eq_append_iff.mp heq with ⟨between, hfront, -⟩ | ⟨between, heq, hback⟩
          · exact hnone ⟨between ++ back, by rw [hfront, List.append_assoc]⟩
          · cases between with
            | nil => exact hnone ⟨back, by rw [heq, List.append_nil]⟩
            | cons e between =>
                obtain ⟨rfl, -⟩ := List.cons.inj hback
                exact hc (heq ▸ List.mem_append_right _ List.mem_cons_self)
        rw [List.cons_append, lengthThroughEnd?, if_neg hbegins, ih (Option.map_eq_none_iff.mp h)]
        rfl

end Comment

namespace Interpolation

/-- The extent is known from the given number of characters, whatever follows them. -/
def Extent.KnownWithin (length : Nat) : Extent → Prop
  | .closed inner => inner + 2 ≤ length
  | .tooDeep index => index < length
  | .unclosed => False

theorem Extent.knownWithin_succ {extent : Extent} {length : Nat} :
    extent.succ.KnownWithin (length + 1) ↔ extent.KnownWithin length := by
  cases extent with
  | closed inner => simp [succ, KnownWithin, Nat.add_right_comm inner 1 2]
  | tooDeep index => simp [succ, KnownWithin]
  | unclosed => exact .rfl

theorem Extent.not_knownWithin_zero (extent : Extent) : ¬ extent.KnownWithin 0 := by
  cases extent <;> simp [KnownWithin]

/-- An extent is decided by the characters up to the last one that belongs to it. -/
theorem extentFrom_exchange {nesting : Quote.Nesting} {seen rest : List Char}
    (hknown : (extentFrom nesting (seen ++ rest)).KnownWithin seen.length) (other : List Char) :
    extentFrom nesting (seen ++ other) = extentFrom nesting (seen ++ rest) := by
  induction seen generalizing nesting with
  | nil => exact absurd hknown (Extent.not_knownWithin_zero _)
  | cons c seen ih =>
      rw [List.cons_append, extentFrom] at hknown
      rw [List.cons_append, List.cons_append, extentFrom, extentFrom]
      cases hread : nesting.read c with
      | none => rfl
      | some next =>
          rw [hread] at hknown
          dsimp only at hknown ⊢
          cases seen with
          | nil =>
              -- A single character neither closes a body nor lets one go on to its end.
              split at hknown
              next => simp [Extent.KnownWithin] at hknown
              next =>
                exact absurd (Extent.knownWithin_succ.mp hknown) (Extent.not_knownWithin_zero _)
          | cons d seen =>
              have hhead : (d :: seen ++ other).head? = (d :: seen ++ rest).head? := rfl
              rw [hhead]
              split
              next => rfl
              next hgoes =>
                rw [if_neg hgoes] at hknown
                rw [ih (Extent.knownWithin_succ.mp hknown)]

/-- A body that is closed is so whatever is behind its brackets. -/
theorem extent_exchange_closed {body rest : List Char}
    (h : extent (body ++ '}' :: '}' :: rest) = .closed body.length) (other : List Char) :
    extent (body ++ '}' :: '}' :: other) = .closed body.length := by
  have hsplit : ∀ text, body ++ '}' :: '}' :: text = (body ++ ['}', '}']) ++ text := fun text => by
    simp
  rw [hsplit] at h ⊢
  rw [← h]
  apply extentFrom_exchange
  change (extent _).KnownWithin _
  rw [h]
  simp [Extent.KnownWithin]

/-- A body that nests too deeply does so whatever follows. -/
theorem extent_append_tooDeep {text : List Char} {index : Nat} (h : extent text = .tooDeep index)
    (hindex : index < text.length) (more : List Char) :
    extent (text ++ more) = .tooDeep index := by
  have hseen : extent (text ++ []) = .tooDeep index := by rwa [List.append_nil]
  rw [← hseen]
  apply extentFrom_exchange
  change (extent _).KnownWithin _
  rw [hseen]
  exact hindex

end Interpolation

namespace QuotedValue

/-- Contents that end do so whatever is behind their quote. -/
theorem contentsLength?_exchange {contents rest : List Char}
    (h : contentsLength? (contents ++ '"' :: rest) = some contents.length) (other : List Char) :
    contentsLength? (contents ++ '"' :: other) = some contents.length := by
  obtain ⟨hescaped, hlast⟩ := escaped_of_contentsLength? h
  exact contentsLength?_eq other hescaped hlast

end QuotedValue

namespace Text

/-- Behind a word one text joins it as another one does: it begins alike, or with a character that
neither makes brackets with the end of the word nor is escaped by it. -/
def JoinsAs (other rest : List Char) : Prop :=
  ∀ c ∈ other.head?, c ∈ rest.head? ∨ (c ≠ '{' ∧ isEscapable c = false)

section Joined

variable {closes : Bool} {word rest other : List Char}

theorem JoinsAs.refl (text : List Char) : JoinsAs text text := fun _ hc => .inl hc

/-- A backslash only joins a word. -/
theorem joinsAs_backslash (after rest : List Char) : JoinsAs ('\\' :: after) rest := by
  rintro _ ⟨⟩
  exact .inr ⟨by decide, by decide⟩

theorem JoinsAs.append_left (h : JoinsAs other rest) (run : List Char) :
    JoinsAs (run ++ other) (run ++ rest) := by
  cases run with
  | nil => exact h
  | cons c tail => exact fun _ hc => .inl hc

theorem JoinsAs.head?_ne (h : JoinsAs other rest) (hne : rest.head? ≠ some '{') :
    other.head? ≠ some '{' := by
  intro hother
  rcases h '{' hother with hrest | ⟨hcurly, _⟩
  · exact hne hrest
  · exact hcurly rfl

theorem JoinsAs.not_escapable (h : JoinsAs other rest)
    (hrest : ∀ c ∈ rest.head?, isEscapable c = false) :
    ∀ c ∈ other.head?, isEscapable c = false :=
  fun c hc => (h c hc).elim (hrest c) And.right

/-- A word goes on with what joins it, and with the word that may begin there. So it does if
fewer characters end a word. -/
theorem wordLength_append {closes' : Bool}
    (h : wordLength closes (word ++ rest) = word.length) (hcloses : closes' → closes)
    (hjoins : JoinsAs other rest) :
    wordLength closes' (word ++ other) = word.length + wordLength closes' other := by
  refine word_induction
    (motive := fun word =>
      wordLength closes' (word ++ other) = word.length + wordLength closes' other)
    ?_ ?_ ?_ h
  · exact (Nat.zero_add _).symm
  · intro c tail hescapable htail
    rw [List.cons_append, List.cons_append, wordLength_escaped hescapable, htail]
    simp only [List.length_cons]
    omega
  · intro c tail hends hbackslash htail
    have hjoined := hjoins.append_left tail
    rw [List.cons_append, wordLength_cons, htail, List.length_cons]
    · omega
    · simp only [endsWord, Bool.or_eq_false_iff, Bool.and_eq_false_iff,
        beq_eq_false_iff_ne] at hends ⊢
      refine ⟨⟨hends.1.1, hends.1.2.imp_right fun hopen => ?_⟩, hends.2.imp_right hjoined.head?_ne⟩
      exact Bool.eq_false_iff.mpr fun hclosed => Bool.eq_false_iff.mp hopen (hcloses hclosed)
    · exact fun hc => hjoined.not_escapable (hbackslash hc)

/-- A word ends where it does before any text that begins alike and with no word. -/
theorem wordLength_exchange (h : wordLength closes (word ++ rest) = word.length)
    (hbegins : BeginsAs other rest) (hother : wordLength closes other = 0) :
    wordLength closes (word ++ other) = word.length := by
  rw [wordLength_append h id fun c hc => .inl (hbegins c hc), hother, Nat.add_zero]

/-- The escapes of a word are its own, whatever joins it. -/
theorem unescape_append (h : wordLength closes (word ++ rest) = word.length)
    (hjoins : JoinsAs other rest) :
    unescape (word ++ other) = unescape word ++ unescape other := by
  refine word_induction (motive := fun word => JoinsAs other rest →
    unescape (word ++ other) = unescape word ++ unescape other) ?_ ?_ ?_ h hjoins
  · exact fun _ => rfl
  · intro c tail hescapable htail hjoins
    rw [List.cons_append, List.cons_append, unescape_escaped hescapable,
      unescape_escaped hescapable, htail hjoins, List.cons_append]
  · intro c tail hends hbackslash htail hjoins
    rw [List.cons_append,
      unescape_cons fun hc => (hjoins.append_left tail).not_escapable (hbackslash hc), htail hjoins,
      unescape_cons_of_append hbackslash]
    rfl

end Joined

end Text

namespace BareValue

variable {source rest other : List Char}

theorem spelled_exchange {word : List Char} (h : spelled word (source ++ rest) = source.length)
    (hbegins : BeginsAs other rest) : spelled word (source ++ other) = source.length := by
  induction source generalizing word with
  | nil =>
      cases word with
      | nil => cases other <;> rfl
      | cons expected word =>
          cases other with
          | nil => rfl
          | cons c tail =>
              obtain ⟨after, rfl⟩ := List.head?_eq_some_iff.mp (hbegins c rfl)
              simpa [spelled] using h
  | cons c source ih =>
      cases word with
      | nil => cases h
      | cons expected word =>
          rw [List.cons_append, spelled] at h ⊢
          split at h
          next heq => rw [if_pos heq, ih (Nat.succ.inj h)]; rfl
          next => cases h

/-- Digits with at most one point among them end before any text that begins alike. -/
theorem unsignedLength_exchange (h : unsignedLength (source ++ rest) = source.length)
    (hbegins : BeginsAs other rest) : unsignedLength (source ++ other) = source.length := by
  rcases unsigned_cases h with ⟨hwhole, hstops, hpoint⟩ |
    ⟨whole, fraction, rfl, hwhole, hfraction, hstops⟩
  · exact unsignedLength_whole hwhole (hbegins.stops hstops) (hbegins.head?_ne hpoint)
  · rw [List.append_assoc, List.cons_append]
    exact unsignedLength_fraction hwhole hfraction (hbegins.stops hstops)

/-- What can be the beginning of a value ends before any text that begins alike. -/
theorem extent_exchange {value : BareValue} (h : value.extent (source ++ rest) = source.length)
    (hbegins : BeginsAs other rest) : value.extent (source ++ other) = source.length := by
  cases value with
  | boolean truth => exact spelled_exchange h hbegins
  | number =>
      rcases extent_number_cases h with ⟨hminus, hlength⟩ | ⟨digits, rfl, hlength⟩
      · have hhead := hbegins.append_left source
        rw [extent_number_of_head?_ne (hhead.head?_ne hminus)]
        exact unsignedLength_exchange hlength hbegins
      · exact congrArg Nat.succ (unsignedLength_exchange hlength hbegins)

end BareValue

section Productions

variable {lenient : Bool} {state next : State} {text rest other : List Char}
  {emitted : List Fragment}

/-- A production that leads to content and is no word has read its own end. -/
def ReadsItsEnd (emitted : List Fragment) (next : State) : Prop :=
  (∃ depth, next = .content depth) ∧ ∀ word, emitted ≠ [.text word]

/-- Two texts in which a production sees the same behind the construct that it reads. -/
structure SeenAlike (lenient : Bool) (emitted : List Fragment) (next : State)
    (rest other : List Char) : Prop where
  begins : BeginsAs other rest
  noWord : BeginsNoWord lenient next rest → BeginsNoWord lenient next other
  noComment : .token .tagName Comment.tagName ∈ emitted →
    Comment.lengthThroughEnd? rest = none → Comment.lengthThroughEnd? other = none

/-- What begins with no word goes on beginning with none, unless it was empty. -/
theorem BeginsNoWord.append (h : BeginsNoWord lenient state text) (hne : text ≠ [])
    (more : List Char) : BeginsNoWord lenient state (text ++ more) := by
  cases state with
  | content depth =>
      cases text with
      | nil => exact absurd rfl hne
      | cons c tail =>
          have hends := Text.wordLength_eq_zero_iff.mp h
          apply Text.wordLength_eq_zero_iff.mpr
          cases tail with
          | nil =>
              simp only [Text.endsWord, List.head?_nil] at hends ⊢
              simp_all
          | cons d tail => exact hends
  | _ => trivial

/-- A production reads the same construct before any text in which it sees the same. -/
theorem Advance.exchange (h : Advance lenient state text emitted next rest)
    (hseen : ReadsItsEnd emitted next ∨ SeenAlike lenient emitted next rest other) :
    Advance lenient state (Fragment.sourceOf emitted ++ other) emitted next other := by
  cases h with
  | blank hc => exact .blank hc
  | closingTag hblanks hname =>
      simpa [Fragment.sourceOf, Fragment.source, Fragment.tagPunctuation] using
        Advance.closingTag hblanks hname
  | @comment depth blanks body rest hblanks hbody hend =>
      have hne : body ≠ [] := by
        rintro rfl
        exact absurd (Comment.terminator_length_le hend) (by decide)
      have hstops : Stops isNameChar (body ++ other) := by
        cases body with
        | nil => exact absurd rfl hne
        | cons c tail => exact hbody
      simpa [Fragment.sourceOf, Fragment.source] using
        Advance.comment hblanks hstops (Comment.lengthThroughEnd?_exchange hend other)
  | @openingTag depth blanks name rest hblanks hname hne hrest hcomment =>
      have hseen := hseen.resolve_left (by simp [ReadsItsEnd])
      have htail : Comment.tail? name other = none := by
        unfold Comment.tail? at hcomment ⊢
        split
        next heq =>
          rw [if_pos heq] at hcomment
          exact hseen.noComment (by simp [heq]) hcomment
        next => rfl
      simpa [Fragment.sourceOf, Fragment.source, Fragment.tagPunctuation] using
        Advance.openingTag hblanks hname hne (hseen.begins.stops hrest) htail
  | interpolation hbody =>
      simpa [Fragment.sourceOf, Fragment.source, Fragment.interpolationOpening,
        Fragment.interpolationClosing] using
        Advance.interpolation (Interpolation.extent_exchange_closed hbody other)
  | subtreeEnd => exact .subtreeEnd
  | word hne hlength =>
      have hseen := hseen.resolve_left (by simp [ReadsItsEnd])
      have hother := hseen.noWord (Text.wordLength_eq_zero_of_append hlength)
      simpa [Fragment.sourceOf, Fragment.source] using
        Advance.word hne (Text.wordLength_exchange hlength hseen.begins hother)
  | @flag depth name blanks rest hname hne hdigit hblanks hstop hrest hequals hreserved =>
      have hseen := hseen.resolve_left (by simp [ReadsItsEnd])
      simpa [Fragment.sourceOf, Fragment.source] using
        Advance.flag hname hne hdigit hblanks ((hseen.begins.append_left blanks).stops hstop)
          (hseen.begins.stops hrest) (hseen.begins.head?_ne hequals) hreserved
  | key hname hne hdigit hblanks =>
      simpa [Fragment.sourceOf, Fragment.source, Fragment.equals] using
        Advance.key hname hne hdigit hblanks
  | slash => exact .slash
  | tagEnd hstate => exact .tagEnd hstate
  | quotedValue hcontents =>
      simpa [Fragment.sourceOf, Fragment.source] using
        Advance.quotedValue (QuotedValue.contentsLength?_exchange hcontents other)
  | subtree => exact .subtree
  | bareValue hfirst hextent hcomplete hboundary =>
      have hseen := hseen.resolve_left (by simp [ReadsItsEnd])
      simpa [Fragment.sourceOf, Fragment.source] using
        Advance.bareValue hfirst (BareValue.extent_exchange hextent hseen.begins) hcomplete
          (hseen.begins.atBoundary hboundary)

/-- A text that begins with no word goes on to begin with none when what is behind its first
construct changes. -/
theorem Advance.beginsNoWord (h : Advance lenient state text emitted next rest)
    (hword : BeginsNoWord lenient state text) (other : List Char) :
    BeginsNoWord lenient state (Fragment.sourceOf emitted ++ other) := by
  cases h with
  | @blank state c rest hc =>
      cases state with
      | content depth => exact Text.wordLength_eq_zero_iff.mpr (by simp [Text.endsWord, hc])
      | _ => trivial
  | word hne hlength =>
      have hzero := List.length_eq_zero_iff.mp (hlength.symm.trans hword)
      exact absurd hzero hne
  | subtreeEnd =>
      exact Text.wordLength_eq_zero_iff.mpr (by simp [Text.endsWord, Step.curlyCloses])
  | tagEnd hstate => rcases hstate with rfl | rfl <;> trivial
  | closingTag | comment | openingTag | interpolation =>
      exact Text.wordLength_eq_zero_iff.mpr (by simp [Text.endsWord])
  | _ => trivial

end Productions

section Traces

variable {lenient : Bool} {state last : State} {text unread other : List Char}
  {fragments : List Fragment}

theorem Trace.beginsNoWord (h : Trace lenient state text fragments last unread)
    (hlast : BeginsNoWord lenient last unread → BeginsNoWord lenient last other)
    (hword : BeginsNoWord lenient state text) :
    BeginsNoWord lenient state (Fragment.sourceOf fragments ++ other) := by
  cases h with
  | refl => exact hlast hword
  | step hstep _ =>
      rw [Fragment.sourceOf_append, List.append_assoc]
      exact hstep.beginsNoWord hword _

/-- A trace reads the same constructs before any text in which its productions see the same.
All but the last of them see only what the trace itself goes on to read, and the ends of
comments that may be anywhere behind them. -/
theorem Trace.exchange (h : Trace lenient state text fragments last unread)
    (hbegins : BeginsAs other unread)
    (hword : BeginsNoWord lenient last unread → BeginsNoWord lenient last other)
    (hcomment : .token .tagName Comment.tagName ∈ fragments → ∀ between,
      Comment.lengthThroughEnd? (between ++ unread) = none →
        Comment.lengthThroughEnd? (between ++ other) = none) :
    Trace lenient state (Fragment.sourceOf fragments ++ other) fragments last other := by
  induction h with
  | refl => exact .refl
  | @step state next last text rest unread emitted fragments hstep htail ih =>
      have hseen : SeenAlike lenient emitted next rest (Fragment.sourceOf fragments ++ other) := by
        rw [htail.text_eq]
        refine ⟨hbegins.append_left _, ?_, fun hmem => ?_⟩
        · rw [← htail.text_eq]
          exact htail.beginsNoWord hword
        · exact hcomment (List.mem_append_left _ hmem) _
      rw [Fragment.sourceOf_append, List.append_assoc]
      exact .step (hstep.exchange (.inr hseen))
        (ih hbegins hword fun hmem => hcomment (List.mem_append_right _ hmem))

/-- A trace reads the same when the text is cut anywhere behind it, unless the rest of a word would
be left. -/
theorem Trace.cut (h : Trace lenient state text fragments last unread) (hbegins : other <+: unread)
    (hword : BeginsNoWord lenient last unread → BeginsNoWord lenient last other) :
    Trace lenient state (Fragment.sourceOf fragments ++ other) fragments last other :=
  h.exchange (.of_isPrefix hbegins) hword fun _ between hnone =>
    Comment.lengthThroughEnd?_eq_none_of_isPrefix
      ((List.prefix_append_right_inj between).mpr hbegins) hnone

/-- A trace that ends in content, and not in a word, reads the same before any text at all that
ends no comment. -/
theorem Trace.exchange_of_content {depth : Nat}
    (h : Trace lenient state text fragments (.content depth) unread)
    (hlast : ∀ word, fragments.getLast? ≠ some (.text word))
    (hcomment : .token .tagName Comment.tagName ∈ fragments → ∀ between,
      Comment.lengthThroughEnd? (between ++ unread) = none →
        Comment.lengthThroughEnd? (between ++ other) = none) :
    Trace lenient state (Fragment.sourceOf fragments ++ other) fragments (.content depth)
      other := by
  rcases h.eq_refl_or_exists_last with ⟨rfl, rfl, rfl⟩ |
    ⟨middle, between, first, emitted, hfirst, hstep, rfl⟩
  · exact .refl
  · have hword : ∀ word, emitted ≠ [.text word] := by
      rintro word rfl
      exact hlast word (by simp)
    have hend : Advance lenient middle (Fragment.sourceOf emitted ++ other) emitted
        (.content depth) other := hstep.exchange (.inl ⟨⟨depth, rfl⟩, hword⟩)
    -- The last production reads something, so all productions before it see what they saw.
    have hbegins : BeginsAs (Fragment.sourceOf emitted ++ other) between := by
      rw [hstep.text_eq]
      obtain ⟨c, tail, hcons⟩ := List.exists_cons_of_ne_nil hstep.sourceOf_ne_nil
      rw [hcons]
      exact fun _ hc => hc
    have hbefore := hfirst.exchange hbegins (fun hnone => hstep.beginsNoWord hnone other)
      fun hmem front hnone => by
        rw [hstep.text_eq, ← List.append_assoc] at hnone
        rw [← List.append_assoc]
        exact hcomment (List.mem_append_left _ hmem) _ hnone
    rw [Fragment.sourceOf_append, List.append_assoc]
    exact hbefore.trans (.single hend)

end Traces

end Markup

end TemplateLexer
