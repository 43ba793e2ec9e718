import TemplateLexer.Proofs.SentencePieces
import TemplateLexer.Proofs.Tiling

/-! # Runs write sentences

The tokens of a run, from any state on, complete what is open in that state: the
tag, the value before it, and all subtrees around them. Every production keeps
this, and every state can be completed somehow, so a refused run has written the
beginning of a sentence.
-/

namespace TemplateLexer.Markup

open Sentence

/-- What follows the name of a tag, or any number of its attributes. -/
inductive InsideTag : List Piece → Prop where
  | mk {entries before slash after : List Piece} (hentries : Phrase .attributes entries)
      (hbefore : Blanks before) (hslash : slash = [] ∨ slash = [tagMark '/'])
      (hafter : Blanks after) :
      InsideTag (entries ++ before ++ slash ++ after ++ [tagMark '>'])

/-- The tokens that complete a sentence from a state on. -/
inductive Completes : (afterText : Bool) → State → List Piece → Prop where
  | content {afterText : Bool} {pieces : List Piece} (h : Phrase (.content afterText) pieces) :
      Completes afterText (.content 0) pieces
  | subtree {afterText : Bool} {depth : Nat} {body rest : List Piece}
      (hbody : Phrase (.content afterText) body) (hrest : Completes false (.tag depth) rest) :
      Completes afterText (.content (depth + 1)) (body ++ brace '}' :: rest)
  | tag {afterText : Bool} {depth : Nat} {inside rest : List Piece} (hinside : InsideTag inside)
      (hrest : Completes false (.content depth) rest) :
      Completes afterText (.tag depth) (inside ++ rest)
  | tagEnd {afterText : Bool} {depth : Nat} {blanks rest : List Piece} (hblanks : Blanks blanks)
      (hrest : Completes false (.content depth) rest) :
      Completes afterText (.tagEnd depth) (blanks ++ tagMark '>' :: rest)
  | value {afterText : Bool} {name : List Char} {depth : Nat} {blanks value rest : List Piece}
      (hblanks : Blanks blanks) (hvalue : Phrase (.value (AttributeName.isDirective name)) value)
      (hrest : Completes false (.tag depth) rest) :
      Completes afterText (.value name depth) (blanks ++ value ++ rest)

namespace InsideTag

/-- The end of a tag after any number of blanks. -/
theorem close {blanks : List Piece} (hblanks : Blanks blanks) :
    InsideTag (blanks ++ [tagMark '>']) := by
  have hinside := InsideTag.mk .noEntry hblanks (.inl rfl) blanks_nil
  simpa using hinside

theorem closeEmpty {blanks : List Piece} (hblanks : Blanks blanks) :
    InsideTag (tagMark '/' :: (blanks ++ [tagMark '>'])) := by
  have hinside := InsideTag.mk .noEntry blanks_nil (.inr rfl) hblanks
  simpa using hinside

theorem entry {entry rest : List Piece} (hentry : Phrase .entry entry) (hrest : InsideTag rest) :
    InsideTag (entry ++ rest) := by
  obtain ⟨hentries, hbefore, hslash, hafter⟩ := hrest
  have hinside := InsideTag.mk (.entries blanks_nil hentry hentries) hbefore hslash hafter
  simpa [List.append_assoc] using hinside

/-- A blank belongs to the attribute after it, or to the end of the tag. -/
theorem blank {piece : Piece} {rest : List Piece} (hpiece : piece.1.isBlank)
    (hrest : InsideTag rest) : InsideTag (piece :: rest) := by
  obtain ⟨hentries, hbefore, hslash, hafter⟩ := hrest
  cases hentries with
  | noEntry =>
      have hinside := InsideTag.mk .noEntry (hbefore.cons hpiece) hslash hafter
      simpa [List.append_assoc] using hinside
  | entries hblanks hentry hmore =>
      have hinside :=
        InsideTag.mk (.entries (hblanks.cons hpiece) hentry hmore) hbefore hslash hafter
      simpa [List.append_assoc] using hinside

theorem openingTag {blanks inside : List Piece} (hinside : InsideTag inside) (name : List Char)
    (hblanks : Blanks blanks) :
    Phrase .tag (tagMark '<' :: (blanks ++ (.tagName, name) :: inside)) := by
  obtain ⟨hentries, hbefore, hslash, hafter⟩ := hinside
  exact .openingTag hblanks hentries hbefore hslash hafter

end InsideTag

namespace Completes

/-- Something that may stand before any content may stand before what completes
content. -/
theorem prepend {before after : Bool} {depth : Nat} {first rest : List Piece}
    (hfirst : ∀ body, Phrase (.content after) body → Phrase (.content before) (first ++ body))
    (hrest : Completes after (.content depth) rest) :
    Completes before (.content depth) (first ++ rest) := by
  cases hrest with
  | content h => exact .content (hfirst _ h)
  | subtree hbody hrest =>
      rw [← List.append_assoc]
      exact .subtree (hfirst _ hbody) hrest

theorem blank {afterText : Bool} {state : State} {piece : Piece} {rest : List Piece}
    (hpiece : piece.1.isBlank) (hrest : Completes false state rest) :
    Completes afterText state (piece :: rest) := by
  cases hrest with
  | content h => exact .content (.blank hpiece h)
  | subtree hbody hrest => exact .subtree (.blank hpiece hbody) hrest
  | tag hinside hrest => exact .tag (hinside.blank hpiece) hrest
  | tagEnd hblanks hrest => exact .tagEnd (hblanks.cons hpiece) hrest
  | value hblanks hvalue hrest => exact .value (hblanks.cons hpiece) hvalue hrest

/-- An attribute in a tag. -/
theorem entry {afterText : Bool} {depth : Nat} {entry rest : List Piece}
    (hentry : Phrase .entry entry) (hrest : Completes false (.tag depth) rest) :
    Completes afterText (.tag depth) (entry ++ rest) := by
  cases hrest with
  | tag hinside hrest =>
      rw [← List.append_assoc]
      exact .tag (hinside.entry hentry) hrest

/-- The value of an attribute. -/
theorem valued {afterText : Bool} {name : List Char} {depth : Nat} {value rest : List Piece}
    (hvalue : Phrase (.value (AttributeName.isDirective name)) value)
    (hrest : Completes false (.tag depth) rest) :
    Completes afterText (.value name depth) (value ++ rest) :=
  .value blanks_nil hvalue hrest

/-- Every state can be completed, whatever stands before it. -/
theorem exists_content (depth : Nat) :
    ∃ pieces, ∀ afterText, Completes afterText (.content depth) pieces := by
  induction depth with
  | zero => exact ⟨[], fun _ => .content .empty⟩
  | succ depth ih =>
      obtain ⟨rest, hrest⟩ := ih
      exact ⟨_, fun _ => .subtree .empty (.tag (.close blanks_nil) (hrest false))⟩

theorem exists_of_state (state : State) :
    ∃ pieces, ∀ afterText, Completes afterText state pieces := by
  cases state with
  | content depth => exact exists_content depth
  | tag depth =>
      obtain ⟨rest, hrest⟩ := exists_content depth
      exact ⟨_, fun _ => .tag (.close blanks_nil) (hrest false)⟩
  | tagEnd depth =>
      obtain ⟨rest, hrest⟩ := exists_content depth
      exact ⟨_, fun _ => .tagEnd blanks_nil (hrest false)⟩
  | value name depth =>
      obtain ⟨rest, hrest⟩ := exists_content depth
      have hnumber : Phrase (.value (AttributeName.isDirective name)) [(.number, [])] := .number
      exact ⟨_, fun _ => .valued hnumber (.tag (.close blanks_nil) (hrest false))⟩

end Completes

variable {lenient : Bool} {state next : State} {text rest : List Char}
  {emitted : List Fragment} {failure : Failure}

/-- A production puts its tokens in front of what completes the state after it. -/
theorem Advance.completes (h : Advance lenient state text emitted next rest) {afterText : Bool}
    (hword : afterText = true → BeginsNoWord lenient state text) {pieces : List Piece}
    (hpieces : ∀ afterText : Bool, (afterText = true → BeginsNoWord lenient next rest) →
      Completes afterText next pieces) :
    Completes afterText state (Fragment.piecesOf emitted ++ pieces) := by
  -- Only behind a word does it matter that text may not be followed by text.
  have hplain := hpieces false nofun
  cases h with
  | blank hc => exact hplain.blank (isBlank_kind_blank _)
  | closingTag hblanks hname =>
      rename_i depth blanks name
      apply hplain.prepend
      intro body hbody
      have hoptional : Optional .tagName
          (Lexeme.piecesOf (Fragment.token .tagName name).lexemes) :=
        optional_piecesOf .tagName name
      have htag := Phrase.closingTag (Fragment.piecesOf_blanks blanks) hoptional
      simpa [Fragment.piecesOf_cons, Fragment.piecesOf_tagPunctuation] using
        Phrase.inTag htag hbody
  | comment hblanks hbody hend => exact hplain.prepend fun _ hrest => .comment hrest
  | openingTag hblanks hname hne hrest hcomment =>
      rename_i depth blanks name
      cases hplain with
      | tag hinside hrest =>
          have htag := hinside.openingTag name (Fragment.piecesOf_blanks blanks)
          have hcontent : Completes afterText _ _ :=
            hrest.prepend fun _ hbody => .inTag htag hbody
          simpa [Fragment.piecesOf_cons, Fragment.piecesOf_tagPunctuation,
            Fragment.piecesOf_token hne] using hcontent
  | interpolation hbody =>
      rename_i depth body
      rw [Fragment.piecesOf_cons, Fragment.piecesOf_interpolation]
      apply hplain.prepend
      intro content hcontent
      have hphrase : Phrase (.content afterText) _ :=
        .interpolation (Fragment.piecesOf_expression body) hcontent
      simpa using hphrase
  | subtreeEnd => exact .subtree .empty hplain
  | word hne hlength =>
      -- Behind text no word can begin, so what stands before this one is no text.
      have hnone : afterText = false := by
        by_contra htext
        have hzero := hword (by simpa using htext)
        exact hne (List.length_eq_zero_iff.mp (hlength.symm.trans hzero))
      subst hnone
      rw [Fragment.piecesOf_cons, Fragment.piecesOf_text hne (Text.isBlank_of_mem_word hlength)]
      exact (hpieces true fun _ => Text.wordLength_eq_zero_of_append hlength).prepend
        fun _ hrest => .word hrest
  | flag hname hne hdigit hblanks hstop hrest hequals hreserved =>
      rename_i depth name blanks
      have hentry := Phrase.flag (AttributeName.name_piecesOf hne) (Fragment.piecesOf_blanks blanks)
      simpa [Fragment.piecesOf_cons] using hplain.entry hentry
  | key hname hne hdigit hblanks =>
      rename_i depth name blanks
      cases hplain with
      | value hafter hvalue hrest =>
          have hentry := Phrase.valued (AttributeName.name_piecesOf hne)
            (Fragment.piecesOf_blanks blanks) hafter hvalue
          simpa [Fragment.piecesOf_cons, Fragment.piecesOf_equals] using hrest.entry hentry
  | slash =>
      cases hplain with
      | tagEnd hblanks hrest =>
          simpa [Fragment.piecesOf_cons, Fragment.piecesOf_tagPunctuation] using
            Completes.tag (.closeEmpty hblanks) hrest
  | tagEnd hstate =>
      rcases hstate with rfl | rfl
      · exact .tag (.close blanks_nil) hplain
      · exact .tagEnd blanks_nil hplain
  | quotedValue hcontents =>
      rename_i name depth contents
      have hvalue := Fragment.phrase_quotedValue contents name
      simpa [Fragment.piecesOf_cons] using hplain.valued hvalue
  | subtree =>
      cases hplain with
      | subtree hbody hrest =>
          simpa [Fragment.piecesOf_cons, Fragment.piecesOf_subtreeBrace] using
            Completes.valued (.subtree hbody) hrest
  | bareValue hfirst hextent hcomplete hboundary =>
      rename_i name depth value source
      have hne : source ≠ [] := BareValue.ne_nil_of_isComplete hcomplete
      rw [Fragment.piecesOf_cons, Fragment.piecesOf_token hne]
      cases value with
      | number => exact hplain.valued .number
      | boolean truth => exact hplain.valued .literal

/-- A refused text can be completed after what was read of it. -/
theorem Refusal.completes (h : Refusal lenient state text emitted failure) :
    ∃ pieces, ∀ afterText, Completes afterText state (Fragment.piecesOf emitted ++ pieces) := by
  cases h with
  | reserved hname hblanks hstop hrest hequals hreserved =>
      rename_i depth name blanks rest
      have hne : name ≠ [] := by
        rintro rfl
        exact absurd hreserved (by decide)
      have hentry := Phrase.flag (AttributeName.name_piecesOf hne) (Fragment.piecesOf_blanks blanks)
      obtain ⟨pieces, hpieces⟩ := Completes.exists_of_state (.tag depth)
      refine ⟨pieces, fun afterText => ?_⟩
      have hcompletes : Completes afterText _ _ := (hpieces false).entry hentry
      simpa [Fragment.piecesOf_cons] using hcompletes
  | _ => exact Completes.exists_of_state _

/-- What a run reads is the beginning of what completes its state, and all of it if the
run does not fail. -/
theorem run_completes (lenient : Bool) (state : State) (text : List Char) :
    ∃ more, (∀ afterText : Bool, (afterText = true → BeginsNoWord lenient state text) →
        Completes afterText state (Fragment.piecesOf (run lenient state text).1 ++ more)) ∧
      ((run lenient state text).2 = none → more = []) := by
  refine run_induction (motive := fun state text fragments failure =>
    ∃ more, (∀ afterText : Bool, (afterText = true → BeginsNoWord lenient state text) →
        Completes afterText state (Fragment.piecesOf fragments ++ more)) ∧
      (failure = none → more = [])) ?_ ?_ ?_ state text
  · exact ⟨[], fun _ _ => .content .empty, fun _ => rfl⟩
  · intro state text emitted failure hrefusal
    obtain ⟨more, hmore⟩ := hrefusal.completes
    exact ⟨more, fun afterText _ => hmore afterText, nofun⟩
  · rintro state text emitted next rest fragments failure hadvance ⟨more, hmore, hnone⟩
    refine ⟨more, fun afterText hword => ?_, hnone⟩
    rw [Fragment.piecesOf_append, List.append_assoc]
    exact hadvance.completes hword hmore

/-- The tokens of a run are the beginning of a sentence, and a sentence if the run does
not fail. -/
theorem exists_sentence_of_run (lenient : Bool) (text : List Char) :
    ∃ more, Sentence (Fragment.piecesOf (run lenient (.content 0) text).1 ++ more) ∧
      ((run lenient (.content 0) text).2 = none → more = []) := by
  obtain ⟨more, hmore, hnone⟩ := run_completes lenient (.content 0) text
  cases hmore false nofun with
  | content hsentence => exact ⟨more, hsentence, hnone⟩

end TemplateLexer.Markup
