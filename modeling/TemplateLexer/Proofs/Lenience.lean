import TemplateLexer.Proofs.Concatenation

/-! # Lenient lexing

A lenient run differs from a strict one at a single place: a closing curly bracket
outside of all subtrees, which the strict run refuses, is a character of a word.
The two runs read the same up to the word that the bracket belongs to. From there
on the lenient run is on its own, but what it has emitted stays, whatever else is
wrong with the input.
-/

namespace TemplateLexer

namespace Markup

variable {lenient : Bool} {state next last : State} {text rest unread : List Char}
  {emitted fragments : List Fragment} {failure : Failure}

/-- Outside of all subtrees a bracket that stands alone is stray. -/
def IsStray (state : State) (text : List Char) : Prop :=
  state = .content 0 ∧ text.head? = some '}'

/-- Strict and lenient words end alike, but for a stray bracket. -/
theorem Text.wordLength_of_strict {word : List Char}
    (h : wordLength true (word ++ rest) = word.length) (hrest : rest.head? ≠ some '}') :
    wordLength false (word ++ rest) = word.length := by
  have hzero : wordLength false rest = 0 := by
    have hstrict := wordLength_eq_zero_of_append h
    cases rest with
    | nil => rfl
    | cons c tail =>
        rw [wordLength_eq_zero_iff] at hstrict ⊢
        have hc : c ≠ '}' := by simpa using hrest
        simpa [endsWord, hc] using hstrict
  have hword : wordLength false (word ++ rest) = word.length + wordLength false rest :=
    wordLength_append h (fun hfalse => absurd hfalse (by decide)) (.refl _)
  rw [hword, hzero, Nat.add_zero]

/-- A production of a strict run is one of a lenient run, unless it reads a word up to a stray
bracket. -/
theorem Advance.of_strict_cases (h : Advance false state text emitted next rest) :
    Advance true state text emitted next rest ∨
      IsStray next rest ∧ state = .content 0 ∧ ∃ word, emitted = [.text word] := by
  cases h with
  | @word depth word rest hne hword =>
      by_cases hstray : IsStray (.content depth) rest
      · exact .inr ⟨hstray, hstray.1, word, rfl⟩
      · refine .inl (.word hne ?_)
        cases depth with
        | zero => exact Text.wordLength_of_strict hword fun hhead => hstray ⟨rfl, hhead⟩
        | succ outer => exact hword
  | _ => exact .inl (by constructor <;> assumption)

/-- A strict run goes nowhere from a stray bracket. -/
theorem IsStray.not_advance (h : IsStray state text) :
    ¬ Advance false state text emitted next rest := by
  obtain ⟨rfl, hhead⟩ := h
  obtain ⟨after, rfl⟩ := List.head?_eq_some_iff.mp hhead
  intro hadvance
  have hstep := hadvance.step_eq
  rw [(Refusal.closingCurly rfl).step_eq] at hstep
  cases hstep

theorem Trace.of_strict (h : Trace false state text fragments last unread)
    (hstray : ¬ IsStray last unread) : Trace true state text fragments last unread := by
  induction h with
  | refl => exact .refl
  | @step state next last text rest unread emitted fragments hstep htail ih =>
      rcases hstep.of_strict_cases with hlenient | ⟨hnext, _⟩
      · exact .step hlenient (ih hstray)
      · cases htail with
        | refl => exact absurd hnext hstray
        | step hlater _ => exact absurd hlater hnext.not_advance

theorem Refusal.of_strict (h : Refusal false state text emitted failure)
    (hcause : failure.cause ≠ .unescapedClosingCurly) :
    Refusal true state text emitted failure := by
  cases h with
  | closingCurly => exact absurd rfl hcause
  | quote => exact .quote
  | _ => constructor <;> assumption

/-- Only a strict run refuses a bracket as stray, and nothing is emitted then. -/
theorem Refusal.closingCurly_cases (h : Refusal lenient state text emitted failure)
    (hcause : failure.cause = .unescapedClosingCurly) :
    lenient = false ∧ IsStray state text ∧ emitted = [] ∧
      failure = ⟨.unescapedClosingCurly, text⟩ := by
  cases h with
  | closingCurly hstrict => exact ⟨hstrict, ⟨rfl, rfl⟩, rfl, rfl⟩
  | @bareValue name depth value => rcases value with _ | _ | _ <;> cases hcause
  | _ => cases hcause

/-- A strict run refuses nothing else at a stray bracket. -/
theorem IsStray.cause_eq (hstray : IsStray state text)
    (h : Refusal false state text emitted failure) : failure.cause = .unescapedClosingCurly := by
  obtain ⟨rfl, hhead⟩ := hstray
  obtain ⟨after, rfl⟩ := List.head?_eq_some_iff.mp hhead
  have hstep := h.step_eq
  rw [(Refusal.closingCurly rfl).step_eq] at hstep
  cases hstep
  rfl

/-- A lenient run refuses no bracket as stray. -/
theorem run_lenient_cause_ne (h : (run true state text).2 = some failure) :
    failure.cause ≠ .unescapedClosingCurly := by
  obtain ⟨_, _, _, _, _, hrefusal, _⟩ := exists_refusal_of_run h
  intro hcause
  exact absurd (hrefusal.closingCurly_cases hcause).1 (by decide)

/-- A strict run that comes to no stray bracket is a lenient run. -/
theorem run_lenient_eq
    (h : ∀ failure ∈ (run false state text).2, failure.cause ≠ .unescapedClosingCurly) :
    run true state text = run false state text := by
  cases hfailure : (run false state text).2 with
  | none =>
      have htrace := (trace_of_run_eq_none hfailure).of_strict (by simp [IsStray])
      rw [htrace.run_eq, run_finished, List.append_nil, ← hfailure]
  | some failure =>
      obtain ⟨before, last, unread, emitted, htrace, hrefusal, hfragments⟩ :=
        exists_refusal_of_run hfailure
      have hcause := h failure hfailure
      have hstray : ¬ IsStray last unread := fun hstray => hcause (hstray.cause_eq hrefusal)
      rw [(htrace.of_strict hstray).run_eq, run_of_refusal (hrefusal.of_strict hcause),
        ← hfragments, ← hfailure]

/-- Every text begins with a word, which may be empty. -/
theorem Text.exists_word (closes : Bool) (text : List Char) :
    ∃ word rest, text = word ++ rest ∧ wordLength closes (word ++ rest) = word.length := by
  refine ⟨_, _, (List.take_append_drop (wordLength closes text) text).symm, ?_⟩
  rw [List.take_append_drop, List.length_take_of_le (wordLength_le closes text)]

theorem Reads.of_word {depth : Nat} {word : List Char} (hne : word ≠ [])
    (hword : Text.wordLength (Step.curlyCloses lenient depth) (word ++ rest) = word.length) :
    Reads lenient (.content depth) (word ++ rest) [Text.wordLexeme word] (.content depth) rest := by
  have hreads := Reads.of_advance_one (.word hne hword)
  rwa [Fragment.lexemes, Text.lexemes_of_word hne (Text.isBlank_of_mem_word hword)] at hreads

/-- A strict run comes to a stray bracket behind these fragments and this word, which is empty if
the bracket begins a word. -/
structure MeetsStray (text : List Char) (before : List Fragment) (word rest : List Char) :
    Prop where
  trace : ∀ lenient, Trace lenient (.content 0) text before (.content 0) (word ++ '}' :: rest)
  held : Text.wordLength true (word ++ '}' :: rest) = word.length
  fresh : word = [] → ∀ other, before.getLast? ≠ some (.text other)

/-- A strict run that ends at a stray bracket has come to it. -/
theorem exists_meetsStray (h : (run false (.content 0) text).2 = some failure)
    (hcause : failure.cause = .unescapedClosingCurly) :
    ∃ before word rest, MeetsStray text before word rest := by
  obtain ⟨fragments, last, unread, emitted, htrace, hrefusal, _⟩ := exists_refusal_of_run h
  obtain ⟨_, ⟨rfl, hhead⟩, rfl, rfl⟩ := hrefusal.closingCurly_cases hcause
  obtain ⟨rest, rfl⟩ := List.head?_eq_some_iff.mp hhead
  rcases htrace.eq_refl_or_exists_last with ⟨_, rfl, rfl⟩ |
    ⟨middle, between, first, emitted, hfirst, hlast, rfl⟩
  · exact ⟨[], [], rest, fun _ => .refl, rfl, fun _ => nofun⟩
  · have hbetween : ¬ IsStray middle between := fun hstray => hstray.not_advance hlast
    have hfirsts : ∀ lenient, Trace lenient (.content 0) text first middle between := by
      intro lenient
      cases lenient with
      | false => exact hfirst
      | true => exact hfirst.of_strict hbetween
    by_cases hword : ∃ word, emitted = [.text word]
    · obtain ⟨word, rfl⟩ := hword
      cases hlast with
      | word hne hlength =>
          exact ⟨first, word, rest, hfirsts, hlength, fun hnil => absurd hnil hne⟩
    · refine ⟨first ++ emitted, [], rest, fun lenient => (hfirsts lenient).trans (.single ?_), rfl,
        fun _ other hother => ?_⟩
      · cases lenient with
        | false => exact hlast
        | true => exact hlast.of_strict_cases.resolve_right fun hstray => hword hstray.2.2
      · rw [List.getLast?_append_of_ne_nil _ hlast.emitted_ne_nil] at hother
        have hmem := List.mem_of_getLast? hother
        rcases hlast.text_cases with ⟨word, heq, _⟩ | ⟨hnone, _⟩
        · exact hword ⟨word, heq⟩
        · exact hnone other hmem

namespace MeetsStray

variable {before : List Fragment} {word : List Char}

/-- The strict run ends at the bracket. -/
theorem runLexemes_strict (h : MeetsStray text before word rest) :
    runLexemes false (.content 0) text = (before.flatMap Fragment.lexemes ++ Text.lexemes word,
      some ⟨.unescapedClosingCurly, '}' :: rest⟩) := by
  have hword : Reads false (.content 0) (word ++ '}' :: rest) (Text.lexemes word) (.content 0)
      ('}' :: rest) := by
    by_cases hempty : word = []
    · subst hempty
      rw [Text.lexemes]
      exact .refl
    · rw [Text.lexemes_of_word hempty (Text.isBlank_of_mem_word h.held)]
      exact .of_word hempty h.held
  rw [(h.trace false).reads.trans hword, runLexemes, run_of_refusal (.closingCurly rfl)]
  simp

section Joint

variable {joint more behind : List Char}

/-- Where something else than the bracket follows, and neither ends the word nor is escaped by
it, the word goes on through it. -/
theorem reads_joint (h : MeetsStray text before word rest) (hne : joint ≠ [])
    (hjoins : Text.JoinsAs (joint ++ (more ++ behind)) ('}' :: rest))
    (hjoint : Text.wordLength (Step.curlyCloses lenient 0) (joint ++ (more ++ behind)) =
      joint.length + Text.wordLength (Step.curlyCloses lenient 0) (more ++ behind))
    (hmore : Text.wordLength (Step.curlyCloses lenient 0) (more ++ behind) = more.length) :
    Reads lenient (.content 0) (word ++ (joint ++ (more ++ behind)))
      [Text.wordLexeme (word ++ joint ++ more)] (.content 0) behind := by
  have hword : Text.wordLength (Step.curlyCloses lenient 0) (word ++ (joint ++ (more ++ behind))) =
      word.length + (joint.length + more.length) := by
    rw [Text.wordLength_append h.held (fun _ => rfl) hjoins, hjoint, hmore]
  have hsplit : word ++ (joint ++ (more ++ behind)) = word ++ joint ++ more ++ behind := by
    simp only [List.append_assoc]
  rw [hsplit] at hword ⊢
  refine .of_word (by simp [hne]) (hword.trans ?_)
  rw [List.length_append, List.length_append, Nat.add_assoc]

/-- The lenient run goes on with the word. -/
theorem reads_lenient (h : MeetsStray text before word (more ++ behind))
    (hmore : Text.wordLength false (more ++ behind) = more.length) :
    Reads true (.content 0) text
      (before.flatMap Fragment.lexemes ++ [Text.wordLexeme (word ++ ['}'] ++ more)])
      (.content 0) behind := by
  have hends : Text.endsWord false '}' (more ++ behind) = false := by
    simp [Text.endsWord, show isBlank '}' = false by decide]
  have hbracket : Text.wordLength false (['}'] ++ (more ++ behind)) =
      1 + Text.wordLength false (more ++ behind) :=
    (Text.wordLength_plain (by decide) hends).trans (Nat.add_comm _ 1)
  have hword : Reads true (.content 0) (word ++ (['}'] ++ (more ++ behind)))
      [Text.wordLexeme (word ++ ['}'] ++ more)] (.content 0) behind :=
    h.reads_joint (List.cons_ne_nil _ _) (.refl _) hbracket hmore
  exact (h.trace true).reads.trans hword

/-- The longer word says what the shorter one does, the bracket, and what follows it. -/
theorem unescape_bracket (h : MeetsStray text before word rest) (more : List Char) :
    Text.unescape (word ++ ['}'] ++ more) = Text.unescape word ++ '}' :: Text.unescape more := by
  have hbracket : Text.unescape ('}' :: more) = '}' :: Text.unescape more :=
    Text.unescape_cons fun hc => absurd hc (by decide)
  rw [List.append_assoc, List.singleton_append, Text.unescape_append h.held, hbracket]
  exact fun c hc => .inl hc

end Joint

end MeetsStray

end Markup

/-- The tokens go on behind a stray bracket at this position: they go through it in the last word
in front of it, or in a new word that begins with it if the tokens do not end in a word. -/
inductive GoesOn (position : Nat) : List Token → List Token → Prop where
  | word {kept after : List Token} {word longer : Token} (hword : word.kind = .text)
      (hstop : word.span.stop = position) (hlonger : longer.kind = .text)
      (hstart : longer.span.start = word.span.start) (hcovers : position < longer.span.stop)
      (htext : word.text.toList ++ ['}'] <+: longer.text.toList) :
      GoesOn position (kept ++ [word]) (kept ++ longer :: after)
  | bracket {kept after : List Token} {first : Token}
      (hkept : kept.getLast?.map Token.kind ≠ some .text) (hfirst : first.kind = .text)
      (hstart : first.span.start = position) (htext : ['}'] <+: first.text.toList) :
      GoesOn position kept (kept ++ first :: after)

/-- The tokens of a run that goes on behind a word. -/
theorem lexMarkup_of_reads_word {lenient : Bool} {input word behind : List Char}
    {before : List Markup.Fragment} (hne : word ≠ [])
    (h : Markup.Reads lenient (.content 0) input
      (before.flatMap Markup.Fragment.lexemes ++ [Markup.Text.wordLexeme word]) (.content 0)
      behind) :
    lexMarkup lenient input =
      { tokens := Lexeme.placeAll 0 (before.flatMap Markup.Fragment.lexemes) ++
          (Markup.Text.wordLexeme word).place (Markup.Fragment.sourceOf before).length ::
            Lexeme.placeAll ((Markup.Fragment.sourceOf before).length + word.length)
              (Markup.runLexemes lenient (.content 0) behind).1
        error := (Markup.runLexemes lenient (.content 0) behind).2.map (·.toLexError input) } := by
  have hsource : (Markup.Text.wordLexeme word).source ≠ [] := hne
  rw [lexMarkup_of_runLexemes h, List.append_assoc, Lexeme.placeAll_append, List.singleton_append,
    Lexeme.placeAll_cons hsource, Markup.Fragment.sourceOf_flatMap_lexemes, Nat.zero_add]
  rfl

namespace Markup.MeetsStray

variable {text : List Char} {before : List Fragment} {word rest : List Char}

/-- The bracket stands behind the word. -/
theorem toLexError_eq (h : MeetsStray text before word rest) :
    Failure.toLexError text ⟨.unescapedClosingCurly, '}' :: rest⟩ =
      ⟨.unescapedClosingCurly, (Fragment.sourceOf before).length + word.length⟩ := by
  have htext : text = (Fragment.sourceOf before ++ word) ++ '}' :: rest := by
    rw [List.append_assoc]
    exact (h.trace false).text_eq
  rw [Failure.toLexError, htext, List.length_append, Nat.add_sub_cancel, List.length_append]

/-- The tokens of the lenient run go on where those of the strict run end. -/
theorem goesOn (h : MeetsStray text before word rest) :
    GoesOn ((Fragment.sourceOf before).length + word.length) (lexMarkup false text).tokens
      (lexMarkup true text).tokens := by
  obtain ⟨more, behind, rfl, hmore⟩ := Text.exists_word false rest
  rw [lexMarkup_of_runLexemes h.runLexemes_strict,
    lexMarkup_of_reads_word (by simp) (h.reads_lenient hmore), Lexeme.placeAll_append,
    Fragment.sourceOf_flatMap_lexemes, Nat.zero_add]
  have htext := h.unescape_bracket more
  by_cases hempty : word = []
  · subst hempty
    rw [Text.lexemes, Lexeme.placeAll, List.append_nil]
    refine .bracket ?_ rfl (Nat.add_zero _).symm ⟨Text.unescape more, ?_⟩
    · rw [Lexeme.getLast?_kind_placeAll]
      intro hlast
      obtain ⟨other, hother⟩ := (h.trace false).getLast?_kind_iff.mp hlast
      exact h.fresh rfl other hother
    · rw [Lexeme.place, String.toList_ofList]
      exact htext.symm
  · rw [Text.lexemes_of_word hempty (Text.isBlank_of_mem_word h.held),
      Lexeme.placeAll_cons (by simpa [Text.wordLexeme] using hempty), Lexeme.placeAll]
    refine .word rfl rfl rfl rfl ?_ ⟨Text.unescape more, ?_⟩
    · simp [Lexeme.place, Text.wordLexeme]
    · rw [Lexeme.place, Lexeme.place, String.toList_ofList, String.toList_ofList,
        List.append_assoc]
      exact htext.symm

end Markup.MeetsStray

section Bracket

variable {input : List Char} {position : Nat}

/-- Lenient lexing changes nothing for an input in which no bracket is stray. -/
theorem lexMarkup_lenient_eq
    (h : (lexMarkup false input).error.map LexError.cause ≠ some .unescapedClosingCurly) :
    lexMarkup true input = lexMarkup false input := by
  rw [lexMarkup_error, Option.map_map] at h
  have hrun : Markup.run true (.content 0) input = Markup.run false (.content 0) input :=
    Markup.run_lenient_eq fun failure hfailure hcause =>
      h (Option.map_eq_some_iff.mpr ⟨failure, hfailure, hcause⟩)
  rw [lexMarkup_of_run hrun, lexMarkup_of_run rfl]

/-- A strict run that refuses a bracket as stray has come to it. -/
theorem exists_meetsStray_of_error
    (h : (lexMarkup false input).error = some ⟨.unescapedClosingCurly, position⟩) :
    ∃ before word rest, Markup.MeetsStray input before word rest ∧
      position = (Markup.Fragment.sourceOf before).length + word.length := by
  rw [lexMarkup_error] at h
  obtain ⟨failure, hfailure, herror⟩ := Option.map_eq_some_iff.mp h
  have hcause : failure.cause = .unescapedClosingCurly := congrArg LexError.cause herror
  obtain ⟨before, word, rest, hmeets⟩ := Markup.exists_meetsStray hfailure hcause
  have hmet := congrArg Prod.snd hmeets.runLexemes_strict
  obtain rfl : failure = _ := Option.some.inj (hfailure.symm.trans hmet)
  rw [hmeets.toLexError_eq] at herror
  exact ⟨before, word, rest, hmeets, (congrArg LexError.position herror).symm⟩

end Bracket

/-- Lenient lexing refuses no closing bracket as stray, and changes nothing for an input in which
none is. If one is, the tokens in front of it stay, and they go on through it. -/
theorem lex_lenient (input : String) :
    (lex { lenient := true } input).error.map LexError.cause ≠ some .unescapedClosingCurly ∧
      ((lex {} input).error.map LexError.cause ≠ some .unescapedClosingCurly →
        lex { lenient := true } input = lex {} input) ∧
      ∀ position, (lex {} input).error = some ⟨.unescapedClosingCurly, position⟩ →
        GoesOn position (lex {} input).tokens (lex { lenient := true } input).tokens := by
  rw [lex_markup, lex_markup]
  refine ⟨fun hcause => ?_, lexMarkup_lenient_eq, fun position hposition => ?_⟩
  · obtain ⟨error, herror, hcause⟩ := Option.map_eq_some_iff.mp hcause
    obtain ⟨failure, hfailure, rfl⟩ := Option.map_eq_some_iff.mp herror
    exact Markup.run_lenient_cause_ne hfailure hcause
  · obtain ⟨before, word, rest, hmeets, rfl⟩ := exists_meetsStray_of_error hposition
    exact hmeets.goesOn

/-- The bracket belongs to the word around it, and what is wrong further on is still refused. -/
example : lex { lenient := true } "a\x7db <" =
    { tokens := [⟨.text, "a\x7db", ⟨0, 3⟩⟩, ⟨.whitespace, " ", ⟨3, 4⟩⟩]
      error := some ⟨.missingTagName, 5⟩ } := by
  decide +kernel

end TemplateLexer
