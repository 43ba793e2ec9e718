import TemplateLexer.Proofs.Scanner.Motion
import TemplateLexer.Proofs.Scanner.Parts
import Mathlib.Logic.Relation

/-! # Scanners come to an end

Markup is nested without a bound, and its parts call each other. What is left to read bounds them:
content is shown to move forward by induction on it, and the parts of a tag assuming it of the
content inside, which has less left. The loop that reads content moves back in front of text, so it
matters that each of its rounds reads something after that.
-/

namespace TemplateLexer

namespace Scanner.Markup

open TemplateLexer.Markup Scan

variable {rules : Rules} {input : List Char} {limit : Nat} {within : Bool}

/-- What is read before it is known what content goes on with. -/
def Turn.count : Turn → Nat
  | .text => 1
  | _ => 0

/-- Text is held back from where the scanner stood in front of the blanks, to which it moves back.
It moves on from there with the character that it saw. -/
theorem movesFrom_text {first middle : Scanner} {c : Char} (hfirst : first.reader.Within input)
    (hmiddle : middle.reader.Within input) (hpeek : first.reader.peek? = some c) :
    Ends
      (do
        rewind first.reader.position
        holdText first.reader.position
        takeText
        discard takeBlanks
        return Turn.text)
      middle fun turn last =>
        last.reader.Within input ∧ first.reader.position + turn.count ≤ last.reader.position := by
  apply (ends_rewind _).bind
  intro _ third hthird
  have hback : third.reader = first.reader := by
    rw [hthird, Reader.rewind, hmiddle.text_eq, ← hfirst.text_eq]
  rw [← hback] at hfirst hpeek ⊢
  refine (Steady.holdText _).bind_movesFrom fun _ fourth hfourth => ?_
  rw [← hfourth] at hfirst hpeek
  refine (movesFrom_takeText hfirst hpeek).bind hfirst (Nat.le_refl _) fun _ _ => ?_
  exact moves_takeBlanks.discard.bind_moves fun _ => .pure rfl

theorem moves_lookAhead : Moves input limit Turn.count (rules.lookAhead within) := by
  intro first hfirst hlimit
  have hflush : ∀ stop turn, Turn.count turn = 0 → Moves input limit Turn.count (do
      flushText stop
      return turn) :=
    fun stop turn hturn => (Steady.flushText stop).bind_moves fun _ => .pure hturn
  have hends : Moves input limit Turn.count (do
      flushText (← position)
      return .ends) := (Steady.look _).bind_moves fun _ => hflush _ .ends rfl
  apply MovesFrom.look
  split
  next => exact hends first hfirst hlimit
  next c hpeek =>
    split
    next => exact hends first hfirst hlimit
    next =>
      split
      next =>
        have hrefuses : Moves input limit Turn.count (do
            flushText (← position)
            refuse .unescapedClosingCurly (← position)) :=
          (Steady.look _).bind_moves fun _ => (Steady.flushText _).bind_moves fun _ => .refuse _
        exact hrefuses first hfirst hlimit
      next =>
        apply MovesFrom.look
        apply MovesFrom.look
        split
        next => exact hflush _ .interpolation rfl first hfirst hlimit
        next =>
          -- In front of text the scanner does not go on from behind the blanks, so how far they
          -- take it is only counted in front of a tag.
          apply Ends.bind (moves_takeBlanks first hfirst hlimit)
          intro blanks middle hmiddle
          refine .after (runs_look rfl) ?_
          split
          next =>
            have htag : Moves input middle.remaining Turn.count (do
                flushText first.reader.position
                emit (.blanks blanks)
                return .tag) :=
              (Steady.flushText _).bind_moves fun _ => (Steady.emit _).bind_moves fun _ => .pure rfl
            apply (htag middle hmiddle.1 (Nat.le_refl _)).weaken
            intro turn last hlast
            exact ⟨hlast.1, Nat.le_trans (Nat.add_le_add_right hmiddle.2 _) hlast.2⟩
          next => exact movesFrom_text hfirst hmiddle.1 hpeek

/-- A tag begins with its bracket and a name, or it is a closing tag. -/
theorem moves_tagOpening : Moves input limit (fun _ => 1) tagOpening := by
  refine Steady.enter.bind_moves fun _ => (Steady.look _).bind_moves fun start => ?_
  refine moves_discardNext?.bind_moves fun _ => moves_takeBlanks.bind_moves fun blanks => ?_
  refine moves_trySlash.bind_moves fun closing => moves_identifier.bind fun name? hname => ?_
  split
  next =>
    refine Moves.weaken ?_ fun _ => Nat.sub_le _ _
    exact (moves_closingTag _ _).bind fun _ _ => .pure rfl
  next =>
    cases name? with
    | none => exact .refuse _
    | some name =>
        refine (moves_tryCommentEnd name).bind_moves fun comment => Steady.moves ?_
        split
        next =>
          refine (Steady.look _).bind fun _ => (Steady.look _).bind fun _ => ?_
          exact (Steady.emit _).bind fun _ => .pure _
        next =>
          refine (Steady.emit _).bind fun _ => (Steady.emit _).bind fun _ => ?_
          exact (Steady.emit _).bind fun _ => .pure _

/-- What is read of an attribute before its value. -/
def AttributeHead.count : AttributeHead → Nat
  | .absent => 0
  | _ => 1

/-- Where no attribute begins, blanks may be read, but no name. -/
theorem moves_attributeHead : Moves input limit AttributeHead.count attributeHead := by
  refine Steady.enter.bind_moves fun _ => moves_takeBlanks.bind_moves fun _ => ?_
  refine (Steady.emit _).bind_moves fun _ => (Steady.look _).bind_moves fun start => ?_
  refine moves_identifier.bind fun name? hname => ?_
  cases name? with
  | none =>
      refine (Steady.look _).bind_moves fun _ => ?_
      split
      next => exact .refuse _
      next => exact .pure rfl
  | some name =>
      dsimp only
      split
      next => exact .throw _
      next =>
        refine (Steady.writeName _).bind_moves fun _ => moves_takeBlanks.bind_moves fun _ => ?_
        refine (Steady.emit _).bind_moves fun _ => (Steady.look _).bind_moves fun _ => ?_
        split
        next =>
          refine moves_discardNext?.bind_moves fun _ => (Steady.emit _).bind_moves fun _ => ?_
          refine moves_takeBlanks.bind_moves fun _ => (Steady.emit _).bind_moves fun _ => ?_
          exact .pure rfl
        next =>
          split
          next => exact .throw _
          next => exact .pure rfl

theorem moves_subtreeOpening : Moves input limit (fun _ => 0) subtreeOpening :=
  moves_discardNext?.bind_moves fun _ => (Steady.emit _).moves

theorem movesFrom_subtreeOpening {first : Scanner} {c : Char} (hfirst : first.reader.Within input)
    (hpeek : first.reader.peek? = some c) : MovesFrom input first (fun _ => 1) subtreeOpening :=
  (movesFrom_discardNext? hfirst hpeek).bind hfirst (Nat.le_refl _) fun _ _ => (Steady.emit _).moves

theorem moves_subtreeEnd : Moves input limit (fun _ => 1) subtreeEnd := by
  apply moves_expected
  intro _
  exact (Steady.emit _).moves

theorem moves_content (h : Moves input limit (fun _ => 0) (rules.contentTail within)) :
    Moves input limit (fun _ => 0) (rules.content within) := by
  rw [Rules.content]
  exact Steady.enter.bind_moves fun _ => h

/-- Nothing is read at the end of the text. -/
theorem moves_contentTail_zero : Moves input 0 (fun _ => 0) (rules.contentTail within) := by
  intro first hfirst hlimit
  have hpeek := (peek?_eq_none_iff hfirst).mpr (Nat.le_zero.mp hlimit)
  rw [Rules.contentTail]
  apply MovesFrom.look
  rw [hpeek]
  refine Steady.moves ?_ first hfirst hlimit
  exact (Steady.look _).bind fun _ => Steady.flushText _

section Recursion

variable (ih : ∀ smaller < limit, ∀ within,
  Moves input smaller (fun _ => 0) (rules.contentTail within))

include ih

/-- The content of a subtree has less left to read than the subtree, or there is nothing left. -/
theorem moves_subtree : Moves input limit (fun _ => 1) rules.subtree := by
  rw [Rules.subtree_eq]
  intro first hfirst hlimit
  cases hpeek : first.reader.peek? with
  | none =>
      have hempty : first.remaining ≤ 0 := Nat.le_of_eq ((peek?_eq_none_iff hfirst).mp hpeek)
      refine moves_subtreeOpening.bind_moves (fun _ => ?_) first hfirst hempty
      exact (moves_content moves_contentTail_zero).bind_moves fun _ => moves_subtreeEnd
  | some c =>
      refine (movesFrom_subtreeOpening hfirst hpeek).bind hfirst hlimit fun _ hbrace => ?_
      have hcontent := ih (limit - 1) (Nat.sub_lt hbrace Nat.one_pos) true
      refine (moves_content hcontent).bind_moves fun _ => ?_
      exact moves_subtreeEnd.weaken fun _ => Nat.sub_le _ _

theorem moves_value (name : List Char) : Moves input limit (fun _ => 0) (rules.value name) := by
  rw [Rules.value]
  refine (Steady.look _).bind_moves fun c? => ?_
  split
  next => exact .refuse _
  next c =>
    split
    next => exact moves_quotedValue name
    next =>
      split
      next => exact (moves_subtree ih).weaken fun _ => Nat.zero_le _
      next =>
        split
        next truth _ => exact moves_truthValue truth
        next => exact moves_numberValue
        next => exact .refuse _

theorem moves_tryAttribute : Moves input limit Bool.toNat rules.tryAttribute := by
  rw [Rules.tryAttribute_eq]
  refine moves_attributeHead.bind fun head _ => ?_
  cases head with
  | absent => exact .pure rfl
  | flag => exact .pure rfl
  | key name =>
      have hvalue := (moves_value ih name).of_le (Nat.sub_le limit 1)
      exact hvalue.bind_moves fun _ => .pure rfl

theorem moves_attributes : Moves input limit (fun _ => 0) rules.attributes := by
  -- Every attribute leaves less to read for the ones behind it.
  induction limit using Nat.strong_induction_on with
  | _ limit ihAttributes =>
      rw [Rules.attributes]
      refine (Steady.look _).bind_moves fun atEnd => ?_
      split
      next => exact .pure rfl
      next =>
        refine (moves_tryAttribute ih).bind fun found hfound => ?_
        split
        next hread =>
          subst hread
          have hless : limit - 1 < limit := Nat.sub_lt hfound Nat.one_pos
          exact ihAttributes (limit - 1) hless fun smaller hsmaller => ih smaller (by omega)
        next => exact .pure (Nat.zero_sub _)

theorem moves_tag : Moves input limit (fun _ => 1) rules.tag := by
  rw [Rules.tag_eq]
  refine moves_tagOpening.bind_rest fun follows => ?_
  split
  next =>
    refine (moves_attributes ih).bind_moves fun _ => ?_
    exact moves_tagEnd.weaken fun _ => Nat.zero_le _
  next => exact .pure rfl

theorem moves_round : Moves input limit Bool.toNat (rules.round within) := by
  rw [Rules.round]
  refine moves_lookAhead.bind fun turn _ => ?_
  cases turn with
  | ends => exact .pure rfl
  | text => exact .pure rfl
  | interpolation => exact moves_interpolation.bind fun _ _ => .pure rfl
  | tag => exact (moves_tag ih).bind fun _ _ => .pure rfl

end Recursion

/-- Every round leaves less to read for the next one, and so does it for subtrees within it. -/
theorem moves_contentTail : Moves input limit (fun _ => 0) (rules.contentTail within) := by
  induction limit using Nat.strong_induction_on generalizing within with
  | _ limit ih =>
      rw [Rules.contentTail_eq]
      have hround := @moves_round rules input limit within fun smaller hless _ => ih smaller hless
      refine hround.bind fun further hlimit => ?_
      cases further with
      | false => exact .pure rfl
      | true => exact ih (limit - 1) (Nat.sub_lt hlimit Nat.one_pos)

/-- Every part comes to an end, and has read something if it has to. -/
theorem moves_part (part : Part) : Moves input limit Bool.toNat (part.program rules) := by
  cases part with
  | content => exact (moves_content moves_contentTail).bind_moves fun _ => .pure rfl
  | contentTail => exact moves_contentTail.bind_moves fun _ => .pure rfl
  | round => exact moves_round fun _ _ _ => moves_contentTail
  | interpolation => exact moves_interpolation.bind fun _ _ => .pure rfl
  | tag => exact (moves_tag fun _ _ _ => moves_contentTail).bind fun _ _ => .pure rfl
  | attributes =>
      exact (moves_attributes fun _ _ _ => moves_contentTail).bind_moves fun _ => .pure rfl
  | oneAttribute => exact moves_tryAttribute fun _ _ _ => moves_contentTail
  | value name =>
      exact (moves_value (fun _ _ _ => moves_contentTail) name).bind_moves fun _ => .pure rfl
  | subtree => exact (moves_subtree fun _ _ _ => moves_contentTail).bind fun _ _ => .pure rfl

section Calls

/-- A part is called in a text, and a subtree only in front of a character. -/
structure Call.Sound (input : List Char) (call : Call) : Prop where
  within : call.scanner.reader.Within input
  peek?_ne_none : call.part = .subtree → call.scanner.reader.peek? ≠ none

/-- A call within another one has no more left to read, and less unless its part comes later. -/
structure Call.Descends (outer inner : Call) : Prop where
  le : inner.scanner.remaining ≤ outer.scanner.remaining
  lt : inner.part.rank < outer.part.rank ∨ inner.scanner.remaining < outer.scanner.remaining

theorem Call.Descends.trans {outer middle inner : Call} (h : outer.Descends middle)
    (hinner : middle.Descends inner) : outer.Descends inner := by
  obtain ⟨hle, hlt⟩ := h
  obtain ⟨hinnerLe, hinnerLt⟩ := hinner
  exact ⟨by omega, by omega⟩

/-- What is read before a call is no longer left for it. -/
theorem Call.Sound.of_moves {α : Type} {program : Scan α} {count : α → Nat} {a : α}
    {outer inner : Part} {first last : Scanner} (hsound : Call.Sound input ⟨outer, first⟩)
    (hmoves : Moves input first.remaining count program) (hruns : Runs program first (.ok a) last)
    (hinner : inner ≠ .subtree) (hlt : inner.rank < outer.rank ∨ 0 < count a) :
    Call.Sound input ⟨inner, last⟩ ∧ Call.Descends ⟨outer, first⟩ ⟨inner, last⟩ := by
  have hfirst : first.reader.Within input := hsound.within
  obtain ⟨hlast, hposition⟩ := (hmoves first hfirst (Nat.le_refl _)).of_eq_ok hruns
  have hremaining := remaining_add_le hfirst hlast hposition
  refine ⟨⟨hlast, fun h => absurd h hinner⟩, Nat.le_of_add_right_le hremaining, ?_⟩
  apply hlt.imp_right
  intro hcount
  exact Nat.lt_of_lt_of_le (Nat.lt_add_of_pos_right hcount) hremaining

/-- A part that is called where the other one stands comes later. -/
theorem Call.Sound.of_rank_lt {outer inner : Part} {first : Scanner}
    (hsound : Call.Sound input ⟨outer, first⟩)
    (hinner : inner = .subtree → first.reader.peek? ≠ none) (hlt : inner.rank < outer.rank) :
    Call.Sound input ⟨inner, first⟩ ∧ Call.Descends ⟨outer, first⟩ ⟨inner, first⟩ :=
  ⟨⟨hsound.within, hinner⟩, Nat.le_refl _, .inl hlt⟩

theorem Calls.descends {outer inner : Call} (h : Calls rules outer inner)
    (hsound : outer.Sound input) : inner.Sound input ∧ outer.Descends inner := by
  cases h with
  | contentTail h =>
      exact hsound.of_moves Steady.enter.moves h (by simp) (.inl (by simp [Part.rank]))
  | round => exact hsound.of_rank_lt (by simp) (by simp [Part.rank])
  | nextRound h =>
      exact hsound.of_moves (moves_part (.round _)) h (by simp) (.inr Nat.one_pos)
  | interpolation h =>
      exact hsound.of_moves moves_lookAhead h (by simp) (.inl (by simp [Part.rank]))
  | tag h => exact hsound.of_moves moves_lookAhead h (by simp) (.inl (by simp [Part.rank]))
  | attributes h => exact hsound.of_moves moves_tagOpening h (by simp) (.inr Nat.one_pos)
  | oneAttribute => exact hsound.of_rank_lt (by simp) (by simp [Part.rank])
  | nextAttribute _ h =>
      exact hsound.of_moves (moves_part .oneAttribute) h (by simp) (.inr Nat.one_pos)
  | value h => exact hsound.of_moves moves_attributeHead h (by simp) (.inr Nat.one_pos)
  | subtree h => exact hsound.of_rank_lt (by simp [h]) (by simp [Part.rank])
  | content h =>
      obtain ⟨c, hpeek⟩ := Option.ne_none_iff_exists'.mp (hsound.peek?_ne_none rfl)
      obtain ⟨hlast, hposition⟩ :=
        (movesFrom_subtreeOpening hsound.within hpeek).of_eq_ok h
      have hremaining := remaining_add_le hsound.within hlast hposition
      exact ⟨⟨hlast, by simp⟩, Nat.le_of_add_right_le hremaining, .inr hremaining⟩

/-- All calls within the whole program are made in its text. -/
theorem Call.sound_of_reflTransGen {call : Call}
    (h : Relation.ReflTransGen (Calls rules) (.start input) call) : call.Sound input := by
  induction h with
  | refl => exact ⟨.start input, by simp [Call.start]⟩
  | tail _ hcalls ih => exact (hcalls.descends ih).1

/-- A call that lies within another one, through any calls in between, has less left to read if
their parts are of the same rank. -/
theorem Call.Sound.remaining_lt {outer inner : Call} (hsound : outer.Sound input)
    (h : Relation.TransGen (Calls rules) outer inner) (hrank : inner.part.rank = outer.part.rank) :
    inner.scanner.remaining < outer.scanner.remaining := by
  have hdescends : inner.Sound input ∧ outer.Descends inner := by
    clear hrank
    induction h with
    | single hcalls => exact hcalls.descends hsound
    | tail _ hcalls ih =>
        obtain ⟨hinner, hlast⟩ := hcalls.descends ih.1
        exact ⟨hinner, ih.2.trans hlast⟩
  exact hdescends.2.lt.resolve_left (Nat.not_lt_of_le (Nat.le_of_eq hrank.symm))

end Calls

end Scanner.Markup

namespace Scanner

variable {input : List Char} {first : Scanner}

theorem unread_suffix (hfirst : first.reader.Within input) : first.reader.unread <:+ input := by
  rw [hfirst.unread_eq]
  exact List.drop_suffix _ _

/-- A scanner that stands in a text is in front of what is unread of it. -/
theorem eq_facing (hfirst : first.reader.Within input) :
    first = facing input first.reader.unread first.pending first.nesting first.stream := by
  have hend := hfirst.position_le
  have hposition : input.length - first.reader.unread.length = first.reader.position := by
    rw [hfirst.unread_eq, List.length_drop]
    omega
  rw [facing, hposition, ← hfirst.text_eq]

namespace Expression

/-- Every step through an expression reads something. -/
theorem exists_runs_runStep_of_within (hfirst : first.reader.Within input)
    (hend : first.reader.atEnd = false) :
    ∃ progress last, Runs runStep first (.ok progress) last ∧ last.reader.Within input ∧
      first.reader.position < last.reader.position := by
  have hlength : first.reader.unread.length = input.length - first.reader.position := by
    rw [hfirst.unread_eq, List.length_drop]
  have hinside : first.reader.position < input.length := by
    apply Nat.lt_of_le_of_ne hfirst.position_le
    intro hposition
    rw [hfirst.atEnd_iff.mpr hposition] at hend
    cases hend
  have hne : first.reader.unread ≠ [] := List.length_pos_iff.mp (by omega)
  obtain ⟨progress, lexemes, rest, _, _, hshorter, _, hstep⟩ :=
    @exists_runs_runStep _ _ first.pending first.nesting first.stream (unread_suffix hfirst) hne
  rw [← eq_facing hfirst] at hstep
  refine ⟨progress, _, hstep, ⟨rfl, Nat.sub_le _ _⟩, ?_⟩
  change _ < input.length - rest.length
  omega

/-- So the loop over an expression ends. -/
theorem exists_runs_run_of_within (hfirst : first.reader.Within input) :
    ∃ last, Runs run first (.ok ()) last := by
  rw [eq_facing hfirst]
  exact ⟨_, runs_run (unread_suffix hfirst)⟩

end Expression

end Scanner

open Scanner.Markup

/-- The scan of any input ends. -/
theorem isSome_scan (options : Options) (input : String) : (scan options input).isSome := by
  have hcontent : Scanner.Moves input.toList input.toList.length (fun _ => 0)
      (Rules.content ⟨options.lenient⟩ false) := moves_content moves_contentTail
  have hstart := Reader.Within.start input.toList
  rw [scan]
  cases options.grammar with
  | markup =>
      obtain ⟨result, last, hruns, _⟩ := hcontent { reader := { text := input.toList } } hstart
        (Nat.le_refl _)
      dsimp only
      rw [hruns]
      rfl
  | expression =>
      obtain ⟨last, hruns⟩ := @Scanner.Expression.exists_runs_run_of_within input.toList
        { reader := { text := input.toList } } hstart
      dsimp only
      rw [hruns]
      rfl

/-- A scanner always makes progress, although it moves back in front of text, and from where it has
sought the end of a comment in vain.

Content is read in rounds. Wherever in the text a part of the program begins, it comes to an end,
and unless it stops, the scanner has not gone back. It has gone on behind a round of content that
is followed by another one, behind an attribute if there is one, and behind a tag, an interpolation
or a subtree. The parts are called in the text only, and whenever one of them is called again
within itself, less is left to read. The loop over an expression ends too, and each of its steps
reads something. So the scan of any input ends. -/
theorem scan_progresses (options : Options) (input : String) :
    (∀ within, Rules.contentTail ⟨options.lenient⟩ within = do
      if ← Rules.round ⟨options.lenient⟩ within then Rules.contentTail ⟨options.lenient⟩ within
      else return ()) ∧
    (∀ part first, first.reader.Within input.toList →
      Scanner.Ends (Part.program ⟨options.lenient⟩ part) first fun further last =>
        last.reader.Within input.toList ∧ first.reader.position ≤ last.reader.position ∧
          (further = true → first.reader.position < last.reader.position)) ∧
    (∀ call, Relation.ReflTransGen (Calls ⟨options.lenient⟩) (.start input.toList) call →
      call.scanner.reader.Within input.toList ∧
        ∀ inner, Relation.TransGen (Calls ⟨options.lenient⟩) call inner →
          inner.part.rank = call.part.rank → inner.scanner.remaining < call.scanner.remaining) ∧
    (∀ first, first.reader.Within input.toList →
      (∃ last, Scanner.Runs Scanner.Expression.run first (.ok ()) last) ∧
        (first.reader.atEnd = false →
          ∃ progress last, Scanner.Runs Scanner.Expression.runStep first (.ok progress) last ∧
            last.reader.Within input.toList ∧ first.reader.position < last.reader.position)) ∧
    (scan options input).isSome := by
  refine ⟨Rules.contentTail_eq ⟨options.lenient⟩, ?_, ?_, ?_, ?_⟩
  · intro part first hfirst
    apply (moves_part part first hfirst (Nat.le_refl _)).weaken
    intro further last hlast
    obtain ⟨hwithin, hposition⟩ := hlast
    refine ⟨hwithin, Nat.le_of_add_right_le hposition, ?_⟩
    -- A part that says it has gone on counts for one character, and any other for none.
    intro hfurther
    subst hfurther
    exact hposition
  · intro call hcall
    have hsound := Call.sound_of_reflTransGen hcall
    exact ⟨hsound.within, fun inner hinner => hsound.remaining_lt hinner⟩
  · intro first hfirst
    constructor
    · exact Scanner.Expression.exists_runs_run_of_within hfirst
    · exact Scanner.Expression.exists_runs_runStep_of_within hfirst
  · exact isSome_scan options input

end TemplateLexer
