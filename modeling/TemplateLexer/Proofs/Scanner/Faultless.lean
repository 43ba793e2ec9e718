import TemplateLexer.Proofs.Scanner.MarkupAccord

/-! # Scanners make no mistakes

Whatever the input is, a scanner comes to an end without a fault, and has made of the
input what the lexer makes of it. Markup is nested without a bound, so this is shown of
content by induction on what is left to read, and of the parts of a tag assuming it of
the content inside.
-/

namespace TemplateLexer

namespace Scanner.Markup

open TemplateLexer.Markup Scan

variable {lenient : Bool} {input unread text rest name : List Char} {depth limit : Nat}
  {nesting : Quote.Nesting} {stream : TokenStream}

/-- What content ends before: the end of the text, or the bracket that ends a subtree. -/
def EndsContent (depth : Nat) (text : List Char) : Prop :=
  text = [] ∨ depth ≠ 0 ∧ text.head? = some '}'

/-- Content is scanned in accord with the run, up to where it may end. -/
def ContentAccords (lenient : Bool) (input unread : List Char) : Prop :=
  ∀ depth raw nesting stream, Held lenient input depth raw unread stream →
    Accords lenient input (Rules.contentTail ⟨lenient⟩ (depth != 0))
      (facing input unread (heldSpan input raw unread) nesting stream)
      fun _ => Stands lenient input (.content depth) fun rest =>
        rest.length ≤ unread.length ∧ EndsContent depth rest

section Tags

variable (ih : ∀ text, text.length < limit → ContentAccords lenient input text)

include ih

/-- The content of a subtree is shorter than the subtree. -/
theorem subtree_accords (h : Reached lenient input (.value name depth) ('{' :: text) stream)
    (hlimit : text.length < limit) :
    Accords lenient input (Rules.subtree ⟨lenient⟩) (facing input ('{' :: text) {} nesting stream)
      fun _ => Stands lenient input (.tag depth) fun rest => rest.length ≤ text.length := by
  have hcontent := h.advance .subtree
  rw [Rules.subtree]
  refine .after (runs_next? h.1).discard (.after (runs_emit _) ?_)
  rw [Rules.content]
  refine .bind (.after runs_enter (ih text hlimit (depth + 1) [] nesting _ (.start hcontent))) ?_
  rintro _ _ ⟨rest, last, written, rfl, hreached, hlength, rfl | ⟨_, hend⟩⟩
  · refine .after (runs_peek? hreached.1) (.after runs_position ?_)
    exact .of_refuses (runs_refuse _ _ _) (hreached.refuse .endInSubtree)
  · obtain ⟨after, rfl⟩ := List.head?_eq_some_iff.mp hend
    refine .after (runs_peek? hreached.1) (.after (runs_next? hreached.1).discard ?_)
    exact .of_runs (runs_emit _)
      ⟨after, last, _, rfl, hreached.advance .subtreeEnd, Nat.le_of_succ_le hlength⟩

theorem value_accords (h : Reached lenient input (.value name depth) unread stream)
    (hblank : Stops isBlank unread) (hlimit : unread.length ≤ limit) :
    Accords lenient input (Rules.value ⟨lenient⟩ name) (facing input unread {} nesting stream)
      fun _ => Stands lenient input (.tag depth) fun rest => rest.length ≤ unread.length := by
  rw [Rules.value]
  refine .after (runs_peek? h.1) ?_
  cases unread with
  | nil =>
      refine .after runs_position (.of_refuses (runs_refuse _ _ _) ?_)
      exact h.refuse .endBeforeValue
  | cons c rest =>
      dsimp only [List.head?_cons]
      by_cases hquote : c = '"'
      · subst hquote
        rw [if_pos (beq_self_eq_true '"')]
        exact (quotedValue_accords h).relax fun _ _ => Nat.le_succ_of_le
      · rw [if_neg (by simpa using hquote)]
        by_cases hcurly : c = '{'
        · subst hcurly
          rw [if_pos (beq_self_eq_true '{')]
          exact (subtree_accords ih h hlimit).relax fun _ _ => Nat.le_succ_of_le
        · rw [if_neg (by simpa using hcurly)]
          cases hfirst : BareValue.ofFirst? c with
          | none =>
              refine .after runs_position (.of_refuses (runs_refuse _ _ _) ?_)
              exact h.refuse (.value (stops_cons.mp hblank) hquote hcurly hfirst)
          | some bare =>
              cases bare with
              | number => exact numberValue_accords hfirst h
              | boolean truth => exact truthValue_accords truth hfirst h

/-- The value behind a key is read with the blanks before it. -/
theorem keyValue_accords (h : Reached lenient input (.value name depth) unread stream)
    (hlimit : unread.length ≤ limit) :
    Accords lenient input
      (do
        emit (.blanks (← takeBlanks))
        Rules.value ⟨lenient⟩ name
        return true)
      (facing input unread {} nesting stream)
      fun found => Stands lenient input (.tag depth) fun rest =>
        found = true ∧ rest.length ≤ unread.length := by
  obtain ⟨blanks, text, rfl, hblanks, htext⟩ := exists_maximalRun isBlank unread
  have hlength : text.length ≤ (blanks ++ text).length := by simp
  refine .after (runs_takeBlanks h.1 hblanks htext) (.after (runs_emit _) ?_)
  refine .bind (value_accords ih (h.blanks hblanks) htext (Nat.le_trans hlength hlimit)) ?_
  rintro _ _ ⟨rest, last, written, rfl, hreached, hrest⟩
  exact .pure ⟨rest, last, written, rfl, hreached, rfl, Nat.le_trans hrest hlength⟩

/-- What begins with a name is an attribute, or is refused where the name begins. -/
theorem namedAttribute_accords {after : List Char}
    (h : Reached lenient input (.tag depth) (name ++ after) stream) (hname : AllName name)
    (hne : name ≠ []) (hafter : Stops isNameChar after) (hlimit : after.length ≤ limit) :
    Accords lenient input
      (do
        if name.head?.any Char.isDigit then
          refuse .expectedAttributeKey (input.length - (name ++ after).length)
        else
          writeName name
          emit (.blanks (← takeBlanks))
          if (← peek?) == some '=' then
            discard next?
            emit .equals
            emit (.blanks (← takeBlanks))
            Rules.value ⟨lenient⟩ name
            return true
          else if Step.isReserved name then
            refuse .expectedAttributeKey (input.length - (name ++ after).length)
          else return true)
      (facing input after {} nesting stream)
      fun found => Stands lenient input (.tag depth) fun rest =>
        found = true ∧ rest.length ≤ after.length := by
  by_cases hdigit : name.head?.any Char.isDigit
  · rw [if_pos hdigit]
    obtain ⟨c, hc, hdigit⟩ := (Option.any_eq_true _ _).mp hdigit
    obtain ⟨tail, rfl⟩ := List.head?_eq_some_iff.mp hc
    exact .of_refuses (runs_refuse _ _ _) (h.refuse (.digit hdigit))
  · rw [if_neg hdigit]
    rw [Bool.not_eq_true] at hdigit
    obtain ⟨spaces, rest, rfl, hspaces, hrest⟩ := exists_maximalRun isBlank after
    have hspaced : spaces ++ rest <:+ input := (List.suffix_append _ _).trans h.1
    have hunread : rest <:+ input := (List.suffix_append _ _).trans hspaced
    have hlength : rest.length ≤ (spaces ++ rest).length := by simp
    refine .after (runs_writeName name) (.after (runs_takeBlanks hspaced hspaces hrest) ?_)
    refine .after (runs_emit _) (.after (runs_peek? hunread) ?_)
    by_cases hequals : rest.head? = some '='
    · obtain ⟨rest, rfl⟩ := List.head?_eq_some_iff.mp hequals
      have hkey := h.advance (.key hname hne hdigit hspaces)
      have hvalue : rest.length ≤ (spaces ++ '=' :: rest).length := Nat.le_of_succ_le hlength
      refine .after (runs_next? hunread).discard (.after (runs_emit _) ?_)
      apply (keyValue_accords ih hkey (Nat.le_trans hvalue hlimit)).relax
      rintro _ _ ⟨rfl, hafter⟩
      exact ⟨rfl, Nat.le_trans hafter hvalue⟩
    · rw [if_neg (by simpa using hequals)]
      split
      next hreserved =>
        refine .of_refuses (runs_refuse _ _ _) ?_
        exact h.refuse (.reserved hname hspaces hafter hrest hequals hreserved)
      next hreserved =>
        rw [Bool.not_eq_true] at hreserved
        have hflag := h.advance
          (.flag hname hne hdigit hspaces hafter hrest hequals hreserved)
        exact .pure ⟨rest, nesting, _, rfl, hflag, rfl, hlength⟩

/-- An attribute is read whole, or there is none and what attributes end before is
next. -/
theorem tryAttribute_accords (h : Reached lenient input (.tag depth) unread stream)
    (hlimit : unread.length ≤ limit) :
    Accords lenient input (Rules.tryAttribute ⟨lenient⟩) (facing input unread {} nesting stream)
      fun found => Stands lenient input (.tag depth) fun rest =>
        if found then rest.length < unread.length
        else rest.length ≤ unread.length ∧ EndsAttributes rest := by
  obtain ⟨blanks, text, rfl, hblanks, htext⟩ := exists_maximalRun isBlank unread
  obtain ⟨name, after, rfl, hname, hafter⟩ := exists_maximalRun isNameChar text
  have hreached := h.blanks hblanks
  rw [Rules.tryAttribute]
  refine .after runs_enter (.after (runs_takeBlanks h.1 hblanks htext) (.after (runs_emit _) ?_))
  refine .after runs_position ?_
  by_cases hne : name = []
  · subst hne
    rw [List.nil_append] at hreached htext ⊢
    refine .after (runs_identifier_none hreached.1 hafter) (.after (runs_peek? hreached.1) ?_)
    by_cases hquote : after.head? = some '"'
    · obtain ⟨rest, rfl⟩ := List.head?_eq_some_iff.mp hquote
      refine .after runs_position (.of_refuses (runs_refuse _ _ _) ?_)
      exact hreached.refuse .quote
    · rw [if_neg (by simpa using hquote)]
      exact .pure ⟨after, nesting, _, rfl, hreached, by simp, htext, hafter, hquote⟩
  · have hpos := List.length_pos_iff.mpr hne
    rw [List.length_append, List.length_append] at hlimit
    refine .after (runs_identifier_some hreached.1 hname hne hafter) ?_
    apply (namedAttribute_accords ih hreached hname hne hafter (by omega)).relax
    rintro _ rest ⟨rfl, hlength⟩
    simp only [if_true, List.length_append]
    omega

/-- Attributes are read up to what they end before. -/
theorem attributes_accords (h : Reached lenient input (.tag depth) unread stream)
    (hlimit : unread.length ≤ limit) :
    Accords lenient input (Rules.attributes ⟨lenient⟩) (facing input unread {} nesting stream)
      fun _ => Stands lenient input (.tag depth) fun rest =>
        rest.length ≤ unread.length ∧ EndsAttributes rest := by
  induction hlength : unread.length using Nat.strong_induction_on
    generalizing unread nesting stream with
  | _ length ihAttributes =>
      subst hlength
      -- Every attribute leaves less to read.
      rw [Rules.attributes]
      refine .after (runs_atEnd h.1) ?_
      split
      next hempty =>
        obtain rfl := List.isEmpty_iff.mp hempty
        exact .pure ⟨[], nesting, stream, rfl, h, Nat.le_refl _, stops_nil, stops_nil, nofun⟩
      next =>
        refine .bind (tryAttribute_accords ih h hlimit) ?_
        rintro found _ ⟨rest, last, _, rfl, hreached, hrest⟩
        cases found with
        | false => exact .pure ⟨rest, last, _, rfl, hreached, hrest⟩
        | true =>
            have hshorter : rest.length < unread.length := hrest
            have hbound := Nat.le_trans (Nat.le_of_lt hshorter) hlimit
            apply (ihAttributes rest.length hshorter hreached hbound rfl).relax
            rintro _ after ⟨hafter, hends⟩
            exact ⟨Nat.le_trans hafter (Nat.le_of_lt hshorter), hends⟩

/-- An opening tag goes on with attributes up to its end. -/
theorem attributes_tagEnd_accords (h : Reached lenient input (.tag depth) unread stream)
    (hlimit : unread.length ≤ limit) :
    Accords lenient input (do
        Rules.attributes ⟨lenient⟩
        tagEnd)
      (facing input unread {} nesting stream)
      fun _ => Stands lenient input (.content depth) fun rest => rest.length ≤ unread.length := by
  refine .bind (attributes_accords ih h hlimit) ?_
  rintro _ _ ⟨rest, last, _, rfl, hreached, hlength, hends⟩
  apply (tagEnd_accords hreached hends).relax
  intro _ after hafter
  exact Nat.le_trans hafter hlength

omit ih in
/-- A comment is written as it was read. -/
theorem comment_accords {blanks body after : List Char} (hblanks : AllBlank blanks)
    (hbody : Stops isNameChar (body ++ after))
    (hend : Comment.lengthThroughEnd? (body ++ after) = some body.length)
    (h : Reached lenient input (.content depth)
      ('<' :: (blanks ++ (Comment.tagName ++ (body ++ after)))) stream) :
    Accords lenient input
      (do
        let source ← slice
          (input.length - ('<' :: (blanks ++ (Comment.tagName ++ (body ++ after)))).length)
          (← position)
        emit (.token .comment source))
      (facing input after {} nesting stream)
      fun _ => Stands lenient input (.content depth) fun rest =>
        rest.length ≤ (blanks ++ (Comment.tagName ++ (body ++ after))).length := by
  have hwhole : '<' :: (blanks ++ (Comment.tagName ++ (body ++ after))) =
      ('<' :: blanks ++ Comment.tagName ++ body) ++ after := by simp
  have hslice := @runs_slice input after after {} nesting stream
    ('<' :: blanks ++ Comment.tagName ++ body) (by rw [← hwhole]; exact h.1)
  rw [← hwhole] at hslice
  refine .after runs_position (.after hslice (.of_runs (runs_emit _) ?_))
  refine ⟨after, nesting, _, rfl, h.advance (.comment hblanks hbody hend), ?_⟩
  simp only [List.length_append]
  omega

/-- A tag is read whole, be it a closing tag, a comment, or an opening tag. -/
theorem tag_accords (h : Reached lenient input (.content depth) ('<' :: text) stream)
    (hlimit : text.length ≤ limit) :
    Accords lenient input (Rules.tag ⟨lenient⟩) (facing input ('<' :: text) {} nesting stream)
      fun _ => Stands lenient input (.content depth) fun rest => rest.length ≤ text.length := by
  obtain ⟨blanks, after, rfl, hblanks, hafter⟩ := exists_maximalRun isBlank text
  have htext : blanks ++ after <:+ input := (List.suffix_cons _ _).trans h.1
  have hunread : after <:+ input := (List.suffix_append _ _).trans htext
  rw [Rules.tag]
  refine .after runs_enter (.after runs_position (.after (runs_next? h.1).discard ?_))
  refine .after (runs_takeBlanks htext hblanks hafter) ?_
  by_cases hslash : after.head? = some '/'
  · obtain ⟨rest, rfl⟩ := List.head?_eq_some_iff.mp hslash
    obtain ⟨name, rest, rfl, hname, hrest⟩ := exists_maximalRun isNameChar rest
    have hnamed : name ++ rest <:+ input := (List.suffix_cons _ _).trans hunread
    refine .after (runs_trySlash hunread) ?_
    by_cases hne : name = []
    · subst hne
      refine .after (runs_identifier_none hnamed hrest) ?_
      exact closingTag_accords rfl hblanks hname hrest h
    · refine .after (runs_identifier_some hnamed hname hne hrest) ?_
      exact closingTag_accords rfl hblanks hname hrest h
  · refine .after (runs_trySlash_of_ne hunread hslash) ?_
    obtain ⟨name, rest, rfl, hname, hrest⟩ := exists_maximalRun isNameChar after
    by_cases hne : name = []
    · subst hne
      refine .after (runs_identifier_none hunread hrest) ?_
      refine .after runs_position (.of_refuses (runs_refuse _ _ _) ?_)
      exact h.refuse (.tagName hblanks hafter hrest hslash)
    · have hunnamed : rest <:+ input := (List.suffix_append _ _).trans hunread
      refine .after (runs_identifier_some hunread hname hne hrest) ?_
      refine .after (runs_tryCommentEnd name hunnamed) ?_
      cases hcomment : Comment.tail? name rest with
      | some length =>
          obtain ⟨rfl, hend⟩ : name = Comment.tagName ∧
              Comment.lengthThroughEnd? rest = some length := by
            simpa [Comment.tail?] using hcomment
          obtain ⟨inside, after, rfl, rfl⟩ := Comment.exists_append_of_lengthThroughEnd? hend
          rw [Option.getD_some, List.drop_left]
          exact comment_accords hblanks hrest hend h
      | none =>
          have hopened := h.advance (.openingTag hblanks hname hne hrest hcomment)
          refine .after (runs_emit _) (.after (runs_emit _) (.after (runs_emit _) ?_))
          simp only [List.length_append] at hlimit
          apply (attributes_tagEnd_accords ih hopened (by omega)).relax
          intro _ behind hlength
          simp only [List.length_append]
          omega

end Tags

/-- Content where the text that is held back ends goes on with nothing held back. -/
theorem ContentAccords.of_reached (h : ContentAccords lenient input unread)
    (hreached : Reached lenient input (.content depth) unread stream)
    (hlength : unread.length ≤ limit) :
    Accords lenient input (Rules.contentTail ⟨lenient⟩ (depth != 0))
      (facing input unread {} nesting stream)
      fun _ => Stands lenient input (.content depth) fun rest =>
        rest.length ≤ limit ∧ EndsContent depth rest := by
  apply (h depth [] nesting stream (.start hreached)).relax
  rintro _ rest ⟨hrest, hends⟩
  exact ⟨Nat.le_trans hrest hlength, hends⟩

/-- No word goes on before a tag or the blanks in front of it. -/
theorem wordLength_tag {closes : Bool} {blanks : List Char} (hblanks : AllBlank blanks) :
    Text.wordLength closes (blanks ++ '<' :: text) = 0 := by
  cases blanks with
  | nil => exact Text.wordLength_eq_zero_iff.mpr (by simp [Text.endsWord])
  | cons c tail =>
      have hc : isBlank c := hblanks c List.mem_cons_self
      exact Text.wordLength_eq_zero_iff.mpr (by simp [Text.endsWord, hc])

/-- A character that the scanner takes for text is one that ends no word. -/
theorem endsWord_eq_false {c : Char} (hblank : isBlank c = false) (hlessThan : c ≠ '<')
    (hinside : ¬ (c == '}' && depth != 0)) (hstrict : ¬ (c == '}' && !lenient))
    (hopening : ¬ Fragment.interpolationOpening.isPrefixOf (c :: rest)) :
    Text.endsWord (Step.curlyCloses lenient depth) c rest = false := by
  have hpair : (c == '{' && rest.head? == some '{') = false := by
    rw [Bool.eq_false_iff]
    intro hpair
    simp only [Bool.and_eq_true, beq_iff_eq] at hpair
    obtain ⟨rfl, hhead⟩ := hpair
    obtain ⟨tail, rfl⟩ := List.head?_eq_some_iff.mp hhead
    exact hopening rfl
  have hcurly : (c == '}' && Step.curlyCloses lenient depth) = false := by
    by_cases hc : c = '}'
    · subst hc
      simp only [beq_self_eq_true, Bool.true_and, Bool.not_eq_true, bne_eq_false_iff_eq,
        Bool.not_eq_false'] at hinside hstrict
      simp [Step.curlyCloses, hinside, hstrict]
    · simp [hc]
  rw [Text.endsWord, hblank, hcurly, hpair]
  simpa using hlessThan

section Content

variable (ih : ∀ text, text.length < limit → ContentAccords lenient input text)

include ih

/-- Content goes on behind an interpolation. -/
theorem interpolation_contentTail_accords
    (h : Reached lenient input (.content depth) ('{' :: '{' :: text) stream)
    (hlimit : text.length < limit) :
    Accords lenient input
      (do
        interpolation
        Rules.contentTail ⟨lenient⟩ (depth != 0))
      (facing input ('{' :: '{' :: text) {} nesting stream)
      fun _ => Stands lenient input (.content depth) fun rest =>
        rest.length ≤ limit ∧ EndsContent depth rest := by
  refine .bind (interpolation_accords h) ?_
  rintro _ _ ⟨rest, last, _, rfl, hreached, hlength⟩
  have hshorter : rest.length < limit := Nat.lt_of_le_of_lt hlength hlimit
  exact (ih rest hshorter).of_reached hreached (Nat.le_of_lt hshorter)

/-- Content goes on behind a tag. -/
theorem tag_contentTail_accords
    (h : Reached lenient input (.content depth) ('<' :: text) stream)
    (hlimit : text.length < limit) :
    Accords lenient input
      (do
        Rules.tag ⟨lenient⟩
        Rules.contentTail ⟨lenient⟩ (depth != 0))
      (facing input ('<' :: text) {} nesting stream)
      fun _ => Stands lenient input (.content depth) fun rest =>
        rest.length ≤ limit ∧ EndsContent depth rest := by
  refine .bind (tag_accords ih h (Nat.le_of_lt hlimit)) ?_
  rintro _ _ ⟨rest, last, _, rfl, hreached, hlength⟩
  have hshorter : rest.length < limit := Nat.lt_of_le_of_lt hlength hlimit
  exact (ih rest hshorter).of_reached hreached (Nat.le_of_lt hshorter)

/-- Content goes on behind a piece of text, which is held back from then on. -/
theorem text_contentTail_accords {c : Char} {raw ahead : List Char}
    (hheld : Held lenient input depth raw (c :: rest) stream)
    (hstarts : isBlank c ∨ Text.endsWord (Step.curlyCloses lenient depth) c rest = false)
    (hlimit : (c :: rest).length ≤ limit) :
    Accords lenient input
      (do
        rewind (input.length - (c :: rest).length)
        holdText (input.length - (c :: rest).length)
        takeText
        discard takeBlanks
        Rules.contentTail ⟨lenient⟩ (depth != 0))
      (facing input ahead (heldSpan input raw (c :: rest)) nesting stream)
      fun _ => Stands lenient input (.content depth) fun rest =>
        rest.length ≤ limit ∧ EndsContent depth rest := by
  have hunread : c :: rest <:+ input := (List.suffix_append raw _).trans hheld.1
  obtain ⟨piece, after, hsplit, hne, hextends, htake⟩ := @exists_runs_takeText lenient input rest
    depth nesting stream c hunread
    { start? := some (input.length - (raw ++ (c :: rest)).length) } hstarts
  obtain ⟨blanks, text, rfl, hblanks, htext⟩ := exists_maximalRun isBlank after
  have hheldPiece := hextends raw stream (hsplit ▸ hheld)
  have hheldText := hheldPiece.append_blanks hblanks
  have hafter : blanks ++ text <:+ input := (List.suffix_append (raw ++ piece) _).trans hheldPiece.1
  have hspan : heldSpan input (raw ++ piece ++ blanks) text =
      { start? := some (input.length - (raw ++ (c :: rest)).length) } := by
    have hwhole : raw ++ piece ++ blanks ++ text = raw ++ (c :: rest) := by simp [hsplit]
    rw [heldSpan_of_ne_nil (by simp [hne]), hwhole]
  have hshorter : text.length < (c :: rest).length := by
    have hpiece := List.length_pos_iff.mpr hne
    rw [hsplit, List.length_append, List.length_append]
    omega
  refine .after (runs_rewind (c :: rest)) (.after runs_holdText (.after htake ?_))
  refine .after (runs_takeBlanks hafter hblanks htext).discard ?_
  rw [← hspan]
  have hbelow := Nat.lt_of_lt_of_le hshorter hlimit
  apply (ih text hbelow depth _ nesting stream hheldText).relax
  rintro _ behind ⟨hlength, hends⟩
  exact ⟨Nat.le_trans hlength (Nat.le_of_lt hbelow), hends⟩

/-- Blanks in front of a tag belong to it, and any others are text. -/
theorem tagOrText_contentTail_accords {c : Char} {raw : List Char}
    (hheld : Held lenient input depth raw (c :: rest) stream)
    (hinside : ¬ (c == '}' && depth != 0)) (hstrict : ¬ (c == '}' && !lenient))
    (hopening : ¬ Fragment.interpolationOpening.isPrefixOf (c :: rest))
    (hlimit : (c :: rest).length ≤ limit) :
    Accords lenient input
      (do
        let blanks ← takeBlanks
        if (← peek?) == some '<' then
          flushText (input.length - (c :: rest).length)
          emit (.blanks blanks)
          Rules.tag ⟨lenient⟩
          Rules.contentTail ⟨lenient⟩ (depth != 0)
        else
          rewind (input.length - (c :: rest).length)
          holdText (input.length - (c :: rest).length)
          takeText
          discard takeBlanks
          Rules.contentTail ⟨lenient⟩ (depth != 0))
      (facing input (c :: rest) (heldSpan input raw (c :: rest)) nesting stream)
      fun _ => Stands lenient input (.content depth) fun rest =>
        rest.length ≤ limit ∧ EndsContent depth rest := by
  have hunread : c :: rest <:+ input := (List.suffix_append raw _).trans hheld.1
  obtain ⟨blanks, after, hsplit, hblanks, hafter⟩ := exists_maximalRun isBlank (c :: rest)
  have hblanked : blanks ++ after <:+ input := hsplit ▸ hunread
  have hbehind : after <:+ input := (List.suffix_append _ _).trans hblanked
  have htake := @runs_takeBlanks input after (heldSpan input raw (c :: rest)) nesting stream blanks
    hblanked hblanks hafter
  rw [← hsplit] at htake
  refine .after htake (.after (runs_peek? hbehind) ?_)
  by_cases htag : after.head? = some '<'
  · obtain ⟨text, rfl⟩ := List.head?_eq_some_iff.mp htag
    have hends : Text.wordLength (Step.curlyCloses lenient depth) (c :: rest) = 0 :=
      hsplit ▸ wordLength_tag hblanks
    have hflushed := hheld.flush hends
    rw [hsplit] at hflushed
    rw [hsplit, List.length_append, List.length_cons] at hlimit
    refine .after (runs_flushText hheld.1) (.after (runs_emit _) ?_)
    exact tag_contentTail_accords ih (hflushed.blanks hblanks) (by omega)
  · rw [if_neg (by simpa using htag)]
    apply text_contentTail_accords ih hheld ?_ hlimit
    cases blanks with
    | nil =>
        obtain rfl : c :: rest = after := hsplit
        have hlessThan : c ≠ '<' := by simpa using htag
        exact .inr (endsWord_eq_false (stops_cons.mp hafter) hlessThan hinside hstrict hopening)
    | cons d more =>
        obtain ⟨rfl, _⟩ := List.cons.inj hsplit
        exact .inl (hblanks c List.mem_cons_self)

end Content

/-- Outside of all subtrees a closing bracket is refused, behind the text before it. -/
theorem closingCurly_accords {raw : List Char}
    (hheld : Held false input 0 raw ('}' :: rest) stream) {post : Unit → Scanner → Prop} :
    Accords false input
      (do
        flushText (← position)
        refuse .unescapedClosingCurly (← position))
      (facing input ('}' :: rest) (heldSpan input raw ('}' :: rest)) nesting stream) post := by
  have hends : Text.wordLength (Step.curlyCloses false 0) ('}' :: rest) = 0 := rfl
  refine .after runs_position (.after (runs_flushText hheld.1) ?_)
  refine .after runs_position (.of_refuses (runs_refuse _ _ _) ?_)
  exact (hheld.flush hends).refuse (.closingCurly rfl)

/-- All content is scanned in accord with the run. -/
theorem contentAccords (lenient : Bool) (input unread : List Char) :
    ContentAccords lenient input unread := by
  induction hlength : unread.length using Nat.strong_induction_on generalizing unread with
  | _ length ihLength =>
      subst hlength
      have ih : ∀ text, text.length < unread.length → ContentAccords lenient input text :=
        fun text hshorter => ihLength text.length hshorter text rfl
      intro depth raw nesting stream hheld
      have hunread : unread <:+ input := (List.suffix_append raw unread).trans hheld.1
      rw [Rules.contentTail]
      refine .after (runs_peek? hunread) ?_
      cases unread with
      | nil =>
          refine .after runs_position (.of_runs (runs_flushText hheld.1) ?_)
          exact ⟨[], nesting, _, rfl, hheld.flush rfl, Nat.le_refl _, .inl rfl⟩
      | cons c rest =>
          dsimp only [List.head?_cons]
          -- The cases are those of the program, each under the negations of the ones before it.
          by_cases hinside : c == '}' && depth != 0
          · rw [if_pos hinside]
            simp only [Bool.and_eq_true, beq_iff_eq, bne_iff_ne] at hinside
            obtain ⟨rfl, hdepth⟩ := hinside
            have hends : Text.wordLength (Step.curlyCloses lenient depth) ('}' :: rest) = 0 :=
              Text.wordLength_eq_zero_iff.mpr (by simp [Text.endsWord, Step.curlyCloses, hdepth])
            refine .after runs_position (.of_runs (runs_flushText hheld.1) ?_)
            exact ⟨'}' :: rest, nesting, _, rfl, hheld.flush hends, Nat.le_refl _,
              .inr ⟨hdepth, rfl⟩⟩
          · rw [if_neg hinside]
            by_cases hstrict : c == '}' && !lenient
            · rw [if_pos hstrict]
              simp only [Bool.and_eq_true, beq_iff_eq, Bool.not_eq_true'] at hstrict
              obtain ⟨rfl, rfl⟩ := hstrict
              obtain rfl : depth = 0 := by simpa using hinside
              exact closingCurly_accords hheld
            · rw [if_neg hstrict]
              refine .after runs_position (.after (runs_startsWith hunread _) ?_)
              by_cases hopening : Fragment.interpolationOpening.isPrefixOf (c :: rest)
              · rw [if_pos hopening]
                obtain ⟨text, htext⟩ := List.isPrefixOf_iff_prefix.mp hopening
                obtain ⟨rfl, rfl⟩ : '{' = c ∧ '{' :: text = rest := List.cons.inj htext
                have hends : Text.wordLength (Step.curlyCloses lenient depth)
                    ('{' :: '{' :: text) = 0 :=
                  Text.wordLength_eq_zero_iff.mpr (by simp [Text.endsWord])
                refine .after (runs_flushText hheld.1) ?_
                exact interpolation_contentTail_accords ih (hheld.flush hends)
                  (Nat.lt_succ_of_lt (Nat.lt_succ_self _))
              · rw [if_neg hopening]
                exact tagOrText_contentTail_accords ih hheld hinside hstrict hopening
                  (Nat.le_refl _)

/-- Markup is scanned from end to end, unless the run refuses it. -/
theorem content_accords (lenient : Bool) (input : List Char) :
    Accords lenient input (Rules.content ⟨lenient⟩ false) (facing input input {} {} {})
      fun _ scanner => ∃ lexemes, runLexemes lenient (.content 0) input = (lexemes, none) ∧
        scanner.stream = ({} : TokenStream).append lexemes := by
  have hreached := Reached.start lenient input
  have hcontent : ContentAccords lenient input input := contentAccords lenient input input
  rw [Rules.content]
  refine .after runs_enter ((hcontent.of_reached hreached (Nat.le_refl _)).weaken ?_)
  rintro _ _ ⟨rest, last, _, rfl, ⟨_, lexemes, hreads, rfl⟩, _, rfl | ⟨hdepth, _⟩⟩
  · refine ⟨lexemes, ?_, rfl⟩
    rw [hreads, runLexemes_finished, List.append_nil]
  · exact absurd rfl hdepth

end Scanner.Markup

theorem Scanner.facing_self (input : List Char) :
    facing input input {} {} {} = { reader := { text := input } } := by
  rw [facing, Nat.sub_self]

/-- What is lexed are the lexemes of the run, and its failure. -/
theorem lexMarkup_eq {lenient : Bool} {input : List Char} {lexemes : List Lexeme}
    {failure : Option Markup.Failure}
    (h : Markup.runLexemes lenient (.content 0) input = (lexemes, failure)) :
    lexMarkup lenient input =
      { tokens := (({} : TokenStream).append lexemes).tokens
        error := failure.map (·.toLexError input) } := by
  obtain ⟨rfl, rfl⟩ := Prod.mk.inj h
  rfl

/-- No production refuses a text because of a span. -/
theorem Markup.Refusal.cause_ne {lenient : Bool} {state : State} {text : List Char}
    {emitted : List Fragment} {failure : Failure}
    (h : Refusal lenient state text emitted failure) (misuse : Span.Pending.Misuse) :
    failure.cause ≠ .invalidSpan misuse := by
  cases h with
  | @bareValue name depth value => rcases value with _ | _ | _ <;> simp [BareValue.malformed]
  | _ => simp

theorem Markup.run_cause_ne (lenient : Bool) (state : State) (text : List Char)
    (misuse : Span.Pending.Misuse) :
    ∀ failure ∈ (run lenient state text).2, failure.cause ≠ .invalidSpan misuse := by
  refine run_induction (motive := fun _ _ _ outcome =>
    ∀ failure ∈ outcome, failure.cause ≠ .invalidSpan misuse) ?_ ?_ ?_ state text
  · exact nofun
  · rintro state text emitted failure hrefusal _ ⟨⟩
    exact hrefusal.cause_ne misuse
  · intro state text emitted next rest fragments failure _ hrest
    exact hrest

/-- Whatever the input is, the scanner comes to an end without a fault, and makes of the
input what the lexer does. No error is about a span. -/
theorem scan_faultless (options : Options) (input : String) :
    scan options input = some (.ok (lex options input)) ∧
      ∀ error ∈ (lex options input).error, ∀ misuse, error.cause ≠ .invalidSpan misuse := by
  constructor
  · rw [scan, lex, ← Scanner.facing_self]
    cases options.grammar with
    | markup =>
        rcases Scanner.Markup.content_accords options.lenient input.toList with
          ⟨_, last, hruns, lexemes, hlexemes, hstream⟩ |
          ⟨_, last, hruns, lexemes, failure, hlexemes, hstream, rfl⟩
        · dsimp only
          rw [hruns, lexMarkup_eq hlexemes, ← hstream]
          rfl
        · dsimp only
          rw [hruns, lexMarkup_eq hlexemes, ← hstream]
          rfl
    | expression =>
        have hruns := @Scanner.Expression.runs_run _ _ {} {} {} (List.suffix_refl input.toList)
        dsimp only
        rw [hruns]
        rfl
  · rw [lex]
    cases options.grammar with
    | markup =>
        intro error herror misuse
        obtain ⟨failure, hfailure, rfl⟩ := Option.map_eq_some_iff.mp herror
        exact Markup.run_cause_ne options.lenient (.content 0) input.toList misuse failure hfailure
    | expression =>
        intro error herror
        cases herror

end TemplateLexer
