import TemplateLexer.Proofs.StepCompleteness

/-! # Traces

A run is a trace of productions that ends where the input is finished or refused.
Whatever holds at both kinds of end and is kept when a production is put in front
holds of every run.
-/

namespace TemplateLexer.Markup

variable {lenient : Bool}

/-- The lexer comes from one point to another one, reading these fragments. -/
inductive Trace (lenient : Bool) :
    State → List Char → List Fragment → State → List Char → Prop where
  | refl {state : State} {text : List Char} : Trace lenient state text [] state text
  | step {state next last : State} {text rest unread : List Char}
      {emitted fragments : List Fragment} (hstep : Advance lenient state text emitted next rest)
      (htail : Trace lenient next rest fragments last unread) :
      Trace lenient state text (emitted ++ fragments) last unread

namespace Trace

variable {state middle last : State} {text between unread : List Char}
  {first second fragments emitted : List Fragment}

theorem single (hstep : Advance lenient state text emitted last unread) :
    Trace lenient state text emitted last unread := by
  have htrace := Trace.step hstep .refl
  rwa [List.append_nil] at htrace

theorem trans (hfirst : Trace lenient state text first middle between)
    (hsecond : Trace lenient middle between second last unread) :
    Trace lenient state text (first ++ second) last unread := by
  induction hfirst with
  | refl => exact hsecond
  | step hstep _ ih =>
      rw [List.append_assoc]
      exact .step hstep (ih hsecond)

/-- A run goes on from any point that it comes to. -/
theorem run_eq (htrace : Trace lenient state text fragments last unread) :
    run lenient state text =
      (fragments ++ (run lenient last unread).1, (run lenient last unread).2) := by
  induction htrace with
  | refl => rfl
  | step hstep _ ih =>
      rw [Markup.run_eq, hstep.step_eq]
      dsimp only
      rw [ih, List.append_assoc]

/-- A trace is empty, or it has a last production. -/
theorem eq_refl_or_exists_last (htrace : Trace lenient state text fragments last unread) :
    (last = state ∧ unread = text ∧ fragments = []) ∨
      ∃ middle between first emitted, Trace lenient state text first middle between ∧
        Advance lenient middle between emitted last unread ∧ fragments = first ++ emitted := by
  induction htrace with
  | refl => exact .inl ⟨rfl, rfl, rfl⟩
  | @step state next last text rest unread emitted fragments hstep _ ih =>
      rcases ih with ⟨rfl, rfl, rfl⟩ | ⟨middle, between, first, later, hfirst, hlast, rfl⟩
      · exact .inr ⟨state, text, [], emitted, .refl, hstep, List.append_nil _⟩
      · exact .inr ⟨middle, between, emitted ++ first, later, .step hstep hfirst, hlast,
          (List.append_assoc _ _ _).symm⟩

end Trace

/-- The input is finished at its end outside of all subtrees. -/
theorem run_finished (lenient : Bool) : run lenient (.content 0) [] = ([], none) := by
  rw [run_eq]
  rfl

theorem run_of_refusal {state : State} {text : List Char} {emitted : List Fragment}
    {failure : Failure} (h : Refusal lenient state text emitted failure) :
    run lenient state text = (emitted, some failure) := by
  rw [run_eq, h.step_eq]

theorem run_of_advance {state next : State} {text rest : List Char} {emitted : List Fragment}
    (h : Advance lenient state text emitted next rest) :
    run lenient state text =
      (emitted ++ (run lenient next rest).1, (run lenient next rest).2) := by
  rw [run_eq, h.step_eq]

/-- The principle of induction over runs. -/
theorem run_induction
    {motive : State → List Char → List Fragment → Option Failure → Prop}
    (finished : motive (.content 0) [] [] none)
    (refused : ∀ {state text emitted failure}, Refusal lenient state text emitted failure →
      motive state text emitted (some failure))
    (advanced : ∀ {state text emitted next rest fragments failure},
      Advance lenient state text emitted next rest → motive next rest fragments failure →
      motive state text (emitted ++ fragments) failure)
    (state : State) (text : List Char) :
    motive state text (run lenient state text).1 (run lenient state text).2 := by
  induction hlength : text.length using Nat.strong_induction_on generalizing state text with
  | _ length ih =>
      cases hstep : step lenient state text with
      | finished =>
          obtain ⟨rfl, rfl⟩ := step_eq_finished_iff.mp hstep
          rw [run_finished]
          exact finished
      | failed emitted failure =>
          have hrefusal := step_eq_failed_iff.mp hstep
          rw [run_of_refusal hrefusal]
          exact refused hrefusal
      | advanced emitted next rest =>
          have hadvance := step_eq_advanced_iff.mp hstep
          -- The rest is shorter, which is all that the induction needs.
          have hless := step_leavesLess lenient state text emitted next rest hstep
          rw [run_of_advance hadvance]
          exact advanced hadvance (ih rest.length (hlength ▸ hless) next rest rfl)

/-- What holds of every fragment that a production or a refusal emits holds of all fragments
of a run. -/
theorem forall_mem_run {P : Fragment → Prop}
    (refused : ∀ {state text emitted failure}, Refusal lenient state text emitted failure →
      ∀ fragment ∈ emitted, P fragment)
    (advanced : ∀ {state text emitted next rest}, Advance lenient state text emitted next rest →
      ∀ fragment ∈ emitted, P fragment)
    (state : State) (text : List Char) : ∀ fragment ∈ (run lenient state text).1, P fragment := by
  refine run_induction (motive := fun _ _ fragments _ => ∀ fragment ∈ fragments, P fragment)
    ?_ ?_ ?_ state text
  · exact nofun
  · intro state text emitted failure hrefusal
    exact refused hrefusal
  · intro state text emitted next rest fragments failure hadvance hrest
    exact List.forall_mem_append.mpr ⟨advanced hadvance, hrest⟩

/-- An element of two lists in a row belongs to one of them. -/
theorem append_eq_append_cons {α : Type} {xs ys first later : List α} {x : α}
    (h : xs ++ ys = first ++ x :: later) :
    (∃ more, first = xs ++ more ∧ ys = more ++ x :: later) ∨
      ∃ behind, xs = first ++ x :: behind ∧ later = behind ++ ys := by
  rcases List.append_eq_append_iff.mp h with ⟨more, hfirst, hlater⟩ | ⟨behind, hxs, hlater⟩
  · exact .inl ⟨more, hfirst, hlater⟩
  · cases behind with
    | nil => exact .inl ⟨[], by simpa using hxs.symm, hlater.symm⟩
    | cons y behind =>
        obtain ⟨rfl, hbehind⟩ := List.cons.inj hlater
        exact .inr ⟨behind, hxs, hbehind⟩

/-- A lexeme of a list of fragments belongs to one of them. -/
theorem Fragment.exists_of_flatMap_lexemes {fragments : List Fragment} {first later : List Lexeme}
    {lexeme : Lexeme} (h : fragments.flatMap lexemes = first ++ lexeme :: later) :
    ∃ before fragment after inner outer, fragments = before ++ fragment :: after ∧
      fragment.lexemes = inner ++ lexeme :: outer ∧ first = before.flatMap lexemes ++ inner ∧
      later = outer ++ after.flatMap lexemes := by
  induction fragments generalizing first with
  | nil => simp at h
  | cons fragment fragments ih =>
      rw [List.flatMap_cons] at h
      rcases append_eq_append_cons h with ⟨more, rfl, hlater⟩ | ⟨behind, hfragment, rfl⟩
      · obtain ⟨before, found, after, inner, outer, rfl, hfound, rfl, rfl⟩ := ih hlater
        exact ⟨fragment :: before, found, after, inner, outer, rfl, hfound,
          (List.append_assoc _ _ _).symm, rfl⟩
      · exact ⟨[], fragment, fragments, first, behind, rfl, hfragment, rfl, rfl⟩

/-- A run comes to every fragment that it emits. -/
theorem exists_of_run_eq {state : State} {text : List Char} {before after : List Fragment}
    {fragment : Fragment} (h : (run lenient state text).1 = before ++ fragment :: after) :
    ∃ front last unread emitted inner outer, Trace lenient state text front last unread ∧
      before = front ++ inner ∧ emitted = inner ++ fragment :: outer ∧
      ((∃ next rest, Advance lenient last unread emitted next rest) ∨
        ∃ failure, Refusal lenient last unread emitted failure) := by
  refine run_induction (motive := fun state text fragments _ => ∀ before,
    fragments = before ++ fragment :: after →
    ∃ front last unread emitted inner outer, Trace lenient state text front last unread ∧
      before = front ++ inner ∧ emitted = inner ++ fragment :: outer ∧
      ((∃ next rest, Advance lenient last unread emitted next rest) ∨
        ∃ failure, Refusal lenient last unread emitted failure)) ?_ ?_ ?_ state text before h
  · intro before hnil
    simp at hnil
  · intro state text emitted failure hrefusal before hemitted
    exact ⟨[], state, text, emitted, before, after, .refl, rfl, hemitted, .inr ⟨failure, hrefusal⟩⟩
  · intro state text emitted next rest fragments failure hadvance ih before hfragments
    rcases append_eq_append_cons hfragments with ⟨more, rfl, hlater⟩ | ⟨behind, hemitted, _⟩
    · obtain ⟨front, last, unread, found, inner, outer, htrace, rfl, hfound⟩ := ih more hlater
      exact ⟨emitted ++ front, last, unread, found, inner, outer, .step hadvance htrace,
        (List.append_assoc _ _ _).symm, hfound⟩
    · exact ⟨[], state, text, emitted, before, behind, .refl, rfl, hemitted,
        .inl ⟨next, rest, hadvance⟩⟩

/-- A run without a failure comes to the end of the input outside of all subtrees. -/
theorem trace_of_run_eq_none {state : State} {text : List Char}
    (h : (run lenient state text).2 = none) :
    Trace lenient state text (run lenient state text).1 (.content 0) [] := by
  refine run_induction (motive := fun state text fragments failure =>
    failure = none → Trace lenient state text fragments (.content 0) []) ?_ ?_ ?_ state text h
  · exact fun _ => .refl
  · exact nofun
  · intro state text emitted next rest fragments failure hadvance hrest hnone
    exact .step hadvance (hrest hnone)

/-- A run with a failure comes to a text that is refused. -/
theorem exists_refusal_of_run {state : State} {text : List Char} {failure : Failure}
    (h : (run lenient state text).2 = some failure) :
    ∃ before last unread emitted, Trace lenient state text before last unread ∧
      Refusal lenient last unread emitted failure ∧
      (run lenient state text).1 = before ++ emitted := by
  refine run_induction (motive := fun state text fragments outcome => outcome = some failure →
    ∃ before last unread emitted, Trace lenient state text before last unread ∧
      Refusal lenient last unread emitted failure ∧ fragments = before ++ emitted)
    ?_ ?_ ?_ state text h
  · exact nofun
  · rintro state text emitted _ hrefusal ⟨⟩
    exact ⟨[], state, text, emitted, .refl, hrefusal, rfl⟩
  · intro state text emitted next rest fragments outcome hadvance hrest hsome
    obtain ⟨before, last, unread, later, htrace, hrefusal, rfl⟩ := hrest hsome
    exact ⟨emitted ++ before, last, unread, later, .step hadvance htrace, hrefusal,
      (List.append_assoc _ _ _).symm⟩

/-- The lexemes of a run, and its failure. -/
def runLexemes (lenient : Bool) (state : State) (text : List Char) :
    List Lexeme × Option Failure :=
  ((run lenient state text).1.flatMap Fragment.lexemes, (run lenient state text).2)

theorem runLexemes_finished (lenient : Bool) : runLexemes lenient (.content 0) [] = ([], none) := by
  rw [runLexemes, run_finished]
  rfl

/-- A run reads these lexemes, and goes on as a run from another point does. -/
def Reads (lenient : Bool) (state : State) (text : List Char) (lexemes : List Lexeme)
    (next : State) (rest : List Char) : Prop :=
  runLexemes lenient state text =
    (lexemes ++ (runLexemes lenient next rest).1, (runLexemes lenient next rest).2)

namespace Reads

variable {state middle last : State} {text between rest : List Char}
  {first second lexemes : List Lexeme}

theorem refl : Reads lenient state text [] state text := rfl

theorem trans (hfirst : Reads lenient state text first middle between)
    (hsecond : Reads lenient middle between second last rest) :
    Reads lenient state text (first ++ second) last rest := by
  rw [Reads, hfirst, hsecond, List.append_assoc]

theorem of_advance {emitted : List Fragment} (h : Advance lenient state text emitted last rest) :
    Reads lenient state text (emitted.flatMap Fragment.lexemes) last rest := by
  rw [Reads, runLexemes, run_of_advance h, List.flatMap_append]
  rfl

theorem of_advance_one {fragment : Fragment} (h : Advance lenient state text [fragment] last rest) :
    Reads lenient state text fragment.lexemes last rest := by
  have hreads := of_advance h
  rwa [List.flatMap_singleton] at hreads

/-- Two ways to go on that agree on what they read. -/
theorem of_append (hall : Reads lenient state text (first ++ second) last rest)
    (hsecond : Reads lenient middle between second last rest) :
    Reads lenient state text first middle between := by
  rw [Reads, hall, hsecond, List.append_assoc]

theorem blanks {run : List Char} (hrun : AllBlank run) :
    Reads lenient state (run ++ rest) (run.map Lexeme.blank) state rest := by
  induction run with
  | nil => exact refl
  | cons c tail ih =>
      have hfirst : Reads lenient state (c :: (tail ++ rest)) [Lexeme.blank c] state
          (tail ++ rest) :=
        of_advance (.blank (hrun c List.mem_cons_self))
      exact hfirst.trans (ih fun d hd => hrun d (List.mem_cons_of_mem _ hd))

end Reads

theorem Trace.reads {state last : State} {text unread : List Char} {fragments : List Fragment}
    (h : Trace lenient state text fragments last unread) :
    Reads lenient state text (fragments.flatMap Fragment.lexemes) last unread := by
  rw [Reads, runLexemes, h.run_eq, List.flatMap_append]
  rfl

end TemplateLexer.Markup
