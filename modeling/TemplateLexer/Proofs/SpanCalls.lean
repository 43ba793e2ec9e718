import TemplateLexer.Span.Pending

/-! # Calls on a pending span

A caller records starts and stops one by one and now and then cuts the span out of a text. What it
learns from a cut depends on all of its calls, but only through two of them: the latest start, and
the latest stop behind it, both since the last cut that was not refused. Histories say which calls
these are without a look at what is pending.
-/

namespace TemplateLexer.Span.Pending

/-- What a pending span can be asked. -/
inductive Call where
  | setStart (start : Nat)
  | setStop (stop : Nat)
  /-- To cut itself out of a text. -/
  | cut (text : List Char)
deriving DecidableEq

/-- What the caller learns from a call. -/
inductive Answer where
  | recorded
  | refused (misuse : Misuse)
  | piece (text : List Char)
  /-- The span reaches beyond the text. -/
  | outside
deriving DecidableEq

/-- What is learned from what comes of a cut. -/
def Answer.ofCut : Cut → Answer
  | .piece text => .piece text
  | .refused misuse => .refused misuse
  | .outside => .outside

/-- What is pending behind a call, and its answer. A refused stop changes nothing. -/
def call (pending : Pending) : Call → Pending × Answer
  | .setStart start => (pending.setStart start, .recorded)
  | .setStop stop =>
    match pending.setStop stop with
    | .ok next => (next, .recorded)
    | .error misuse => (pending, .refused misuse)
  | .cut text => ((pending.cut text).2, .ofCut (pending.cut text).1)

/-- What is pending behind a sequence of calls. -/
def after (pending : Pending) (calls : List Call) : Pending :=
  calls.foldl (fun pending call => (pending.call call).1) pending

def answer (pending : Pending) (call : Call) : Answer := (pending.call call).2

/-- A call with its answer. -/
abbrev Event := Call × Answer

/-- The calls of a sequence, each with its answer. -/
def conversation (pending : Pending) : List Call → List Event
  | [] => []
  | call :: rest => (call, pending.answer call) :: (pending.call call).1.conversation rest

section Histories

/-- A cut that came to something, or that would have reached beyond its text, uses up what was
recorded before it. A cut that was refused does not. -/
def Event.Clears : Event → Prop
  | (.cut _, .refused _) => False
  | (.cut _, _) => True
  | _ => False

/-- Behind this event the start from before it still counts. -/
def Event.KeepsStart (event : Event) : Prop :=
  (∀ start, event.1 ≠ .setStart start) ∧ ¬ event.Clears

/-- Behind this event the stop from before it still counts. A stop of zero replaces no other. -/
def Event.KeepsStop (event : Event) : Prop :=
  event.KeepsStart ∧ ∀ stop, event.1 = .setStop stop → stop = 0

/-- Somewhere in a history stands an event of which something holds, given the events before it,
and every event behind it keeps that. -/
def Lasts (holds : List Event → Event → Prop) (keeps : Event → Prop) (history : List Event) :
    Prop :=
  ∃ before event since, history = before ++ event :: since ∧ holds before event ∧
    ∀ later ∈ since, keeps later

/-- The latest start of a history, if no cut has used it. -/
def Starts (history : List Event) (start : Nat) : Prop :=
  Lasts (fun _ event => event.1 = .setStart start) Event.KeepsStart history

/-- The latest start of a history and the latest stop behind it, if no cut has used them. -/
def Encloses (history : List Event) (start stop : Nat) : Prop :=
  Lasts (fun before event => event.1 = .setStop stop ∧ stop ≠ 0 ∧ Starts before start)
    Event.KeepsStop history

variable {holds : List Event → Event → Prop} {keeps : Event → Prop}

theorem not_lasts_nil : ¬ Lasts holds keeps [] := by
  rintro ⟨before, event, since, hhistory, _⟩
  exact List.append_ne_nil_of_right_ne_nil _ (List.cons_ne_nil _ _) hhistory.symm

/-- What lasts to the end of a history came with its last event, or was kept by it. -/
theorem lasts_concat (history : List Event) (event : Event) :
    Lasts holds keeps (history ++ [event]) ↔
      holds history event ∨ keeps event ∧ Lasts holds keeps history := by
  constructor
  · rintro ⟨before, first, since, hhistory, hholds, hkeeps⟩
    rcases List.eq_nil_or_concat since with rfl | ⟨since, last, rfl⟩
    · obtain ⟨rfl, hevent⟩ := List.append_inj' hhistory rfl
      obtain rfl := List.singleton_inj.mp hevent
      exact .inl hholds
    · rw [List.concat_eq_append] at hhistory hkeeps
      rw [← List.cons_append, ← List.append_assoc] at hhistory
      obtain ⟨rfl, hevent⟩ := List.append_inj' hhistory rfl
      obtain rfl := List.singleton_inj.mp hevent
      obtain ⟨hsince, hlast⟩ := List.forall_mem_append.mp hkeeps
      exact .inr ⟨hlast _ List.mem_cons_self, before, first, since, rfl, hholds, hsince⟩
  · rintro (hholds | ⟨hkeep, before, first, since, rfl, hholds, hkeeps⟩)
    · exact ⟨history, event, [], rfl, hholds, by simp⟩
    · refine ⟨before, first, since ++ [event], by simp, hholds, ?_⟩
      exact List.forall_mem_append.mpr ⟨hkeeps, List.forall_mem_singleton.mpr hkeep⟩

end Histories

variable {pending : Pending} {history : List Event}

theorem call_setStop_zero (pending : Pending) :
    pending.call (.setStop 0) = (pending, .refused .zeroStop) := rfl

theorem call_setStop_of_ne_zero {stop : Nat} (h : stop ≠ 0) :
    pending.call (.setStop stop) = ({ pending with stop? := some stop }, .recorded) := by
  rw [call, setStop, if_neg h]

/-- A cut with an end missing is refused and changes nothing. Otherwise both ends are forgotten. -/
theorem call_cut_cases (pending : Pending) (text : List Char) :
    (pending.start? = none ∧
        pending.call (.cut text) = (pending, .refused .missingStart)) ∨
      (∃ start, pending.start? = some start ∧ pending.stop? = none ∧
        pending.call (.cut text) = (pending, .refused .missingStop)) ∨
      ∃ start stop, pending.start? = some start ∧ pending.stop? = some stop ∧
        pending.call (.cut text) = ({},
          if max start stop ≤ text.length then .piece (Span.cut ⟨start, max start stop⟩ text)
          else .outside) := by
  obtain ⟨start?, stop?⟩ := pending
  cases start? with
  | none => exact .inl ⟨rfl, rfl⟩
  | some start =>
      cases stop? with
      | none => exact .inr (.inl ⟨start, rfl, rfl, rfl⟩)
      | some stop =>
          refine .inr (.inr ⟨start, stop, rfl, rfl, ?_⟩)
          simp only [call, cut]
          split <;> rfl

/-- What is pending are the latest ends of a history. A stop without a start in front of it may be
pending too, and is none of them. -/
structure Represents (pending : Pending) (history : List Event) : Prop where
  start_iff : ∀ start, pending.start? = some start ↔ Starts history start
  ends_iff : ∀ start stop,
    pending.start? = some start ∧ pending.stop? = some stop ↔ Encloses history start stop

theorem represents_nil : Represents {} [] where
  start_iff start := by simp [Starts, not_lasts_nil]
  ends_iff start stop := by simp [Encloses, not_lasts_nil]

theorem Represents.concat_of_keepsStop (h : pending.Represents history) {event : Event}
    (hkeeps : event.KeepsStop) : pending.Represents (history ++ [event]) where
  start_iff start := by
    have hstart : event.1 ≠ .setStart start := hkeeps.1.1 start
    rw [h.start_iff, Starts, Starts, lasts_concat]
    simp [hstart, hkeeps.1]
  ends_iff start stop := by
    have hstop : ¬ (event.1 = .setStop stop ∧ stop ≠ 0) :=
      fun hevent => hevent.2 (hkeeps.2 stop hevent.1)
    rw [h.ends_iff, Encloses, Encloses, lasts_concat]
    simp only [← and_assoc, hstop, hkeeps, true_and, false_and, false_or]

theorem represents_setStart (pending : Pending) (history : List Event) (start : Nat) :
    (pending.setStart start).Represents (history ++ [(.setStart start, .recorded)]) where
  start_iff other := by
    rw [Starts, lasts_concat]
    simp [setStart, Event.KeepsStart]
  ends_iff other stop := by
    rw [Encloses, lasts_concat]
    simp [setStart, Event.KeepsStop, Event.KeepsStart]

theorem Represents.setStop (h : pending.Represents history) {stop : Nat} (hne : stop ≠ 0) :
    Represents { pending with stop? := some stop } (history ++ [(.setStop stop, .recorded)]) where
  start_iff start := by
    rw [h.start_iff, Starts, Starts, lasts_concat]
    simp [Event.KeepsStart, Event.Clears]
  ends_iff start other := by
    have hreplaces : ¬ Event.KeepsStop (.setStop stop, .recorded) := fun hkeeps =>
      hne (hkeeps.2 stop rfl)
    rw [h.start_iff, Encloses, lasts_concat]
    simp only [hreplaces, false_and, or_false, Option.some.injEq, Call.setStop.injEq]
    constructor
    · rintro ⟨hstart, rfl⟩
      exact ⟨rfl, hne, hstart⟩
    · rintro ⟨rfl, _, hstart⟩
      exact ⟨hstart, rfl⟩

/-- Behind a cut that is not refused nothing is pending, and no end of the history counts. -/
theorem represents_of_clears (history : List Event) {event : Event} (hclears : event.Clears) :
    Represents {} (history ++ [event]) := by
  obtain ⟨_ | _ | text, outcome⟩ := event
  · exact hclears.elim
  · exact hclears.elim
  · constructor
    · intro start
      rw [Starts, lasts_concat]
      simp [Event.KeepsStart, hclears]
    · intro start stop
      rw [Encloses, lasts_concat]
      simp [Event.KeepsStop, Event.KeepsStart, hclears]

theorem Event.keepsStop_cut_refused (text : List Char) (misuse : Misuse) :
    Event.KeepsStop (.cut text, .refused misuse) := by
  simp [Event.KeepsStop, Event.KeepsStart, Event.Clears]

/-- Whatever is called, what is pending are the latest ends of what has been called. -/
theorem Represents.call (h : pending.Represents history) (call : Call) :
    (pending.call call).1.Represents (history ++ [(call, pending.answer call)]) := by
  cases call with
  | setStart start => exact represents_setStart pending history start
  | setStop stop =>
      by_cases hzero : stop = 0
      · subst hzero
        exact h.concat_of_keepsStop (by simp [Event.KeepsStop, Event.KeepsStart, Event.Clears])
      · rw [answer, call_setStop_of_ne_zero hzero]
        exact h.setStop hzero
  | cut text =>
      rw [answer]
      rcases pending.call_cut_cases text with ⟨_, hcut⟩ | ⟨_, _, _, hcut⟩ | ⟨start, stop, _, _, hcut⟩
      · rw [hcut]
        exact h.concat_of_keepsStop (Event.keepsStop_cut_refused text .missingStart)
      · rw [hcut]
        exact h.concat_of_keepsStop (Event.keepsStop_cut_refused text .missingStop)
      · rw [hcut]
        apply represents_of_clears history
        split <;> trivial

theorem Represents.after (h : pending.Represents history) (calls : List Call) :
    (pending.after calls).Represents (history ++ pending.conversation calls) := by
  induction calls generalizing pending history with
  | nil => rwa [conversation, List.append_nil]
  | cons call rest ih =>
      have hrest := ih (h.call call)
      rwa [List.append_assoc, List.singleton_append] at hrest

section Answers

variable {start stop : Nat}

theorem Represents.starts_of_encloses (h : pending.Represents history)
    (hends : Encloses history start stop) : Starts history start :=
  (h.start_iff start).mp ((h.ends_iff start stop).mpr hends).1

theorem Represents.not_encloses (h : pending.Represents history)
    (hnone : ∀ start, ¬ Starts history start) : ¬ Encloses history start stop := by
  intro hends
  exact hnone start (h.starts_of_encloses hends)

/-- The ends that count are told apart by no choice. -/
theorem Represents.exists_encloses_iff (h : pending.Represents history)
    (hends : Encloses history start stop) (p : Nat → Nat → Prop) :
    (∃ start stop, Encloses history start stop ∧ p start stop) ↔ p start stop := by
  obtain ⟨hstart, hstop⟩ := (h.ends_iff start stop).mpr hends
  constructor
  · rintro ⟨first, last, hother, hp⟩
    obtain ⟨hfirst, hlast⟩ := (h.ends_iff first last).mpr hother
    obtain rfl := Option.some.inj (hstart.symm.trans hfirst)
    obtain rfl := Option.some.inj (hstop.symm.trans hlast)
    exact hp
  · exact fun hp => ⟨start, stop, hends, hp⟩

/-- What a cut comes to is a matter of the history alone. -/
theorem Represents.answer_cut_cases (h : pending.Represents history) (text : List Char) :
    ((∀ start, ¬ Starts history start) ∧
        pending.answer (.cut text) = .refused .missingStart) ∨
      ((∃ start, Starts history start) ∧ (∀ start stop, ¬ Encloses history start stop) ∧
        pending.answer (.cut text) = .refused .missingStop) ∨
      ∃ start stop, Encloses history start stop ∧
        pending.answer (.cut text) =
          if max start stop ≤ text.length then .piece (Span.cut ⟨start, max start stop⟩ text)
          else .outside := by
  rw [answer]
  rcases pending.call_cut_cases text with
    ⟨hnone, hcut⟩ | ⟨start, hstart, hnone, hcut⟩ | ⟨start, stop, hstart, hstop, hcut⟩
  · refine .inl ⟨fun start hstarts => ?_, by rw [hcut]⟩
    rw [← h.start_iff, hnone] at hstarts
    cases hstarts
  · refine .inr (.inl ⟨⟨start, (h.start_iff start).mp hstart⟩, fun first last hends => ?_,
      by rw [hcut]⟩)
    rw [← h.ends_iff, hnone] at hends
    cases hends.2
  · exact .inr (.inr ⟨start, stop, (h.ends_iff start stop).mp ⟨hstart, hstop⟩, by rw [hcut]⟩)

theorem Represents.answer_cut_eq_piece_iff (h : pending.Represents history)
    (text piece : List Char) :
    pending.answer (.cut text) = .piece piece ↔
      ∃ start stop, Encloses history start stop ∧
        max start stop ≤ text.length ∧ piece = Span.cut ⟨start, max start stop⟩ text := by
  rcases h.answer_cut_cases text with
    ⟨hnone, hanswer⟩ | ⟨_, hnone, hanswer⟩ | ⟨start, stop, hends, hanswer⟩
  · simp [hanswer, h.not_encloses hnone]
  · simp [hanswer, hnone]
  · rw [hanswer, h.exists_encloses_iff hends]
    split
    next hle =>
      rw [Answer.piece.injEq, eq_comm]
      exact (and_iff_right hle).symm
    next hle =>
      refine iff_of_false (fun hpiece => ?_) fun hinside => hle hinside.1
      cases hpiece

theorem Represents.answer_cut_eq_outside_iff (h : pending.Represents history) (text : List Char) :
    pending.answer (.cut text) = .outside ↔
      ∃ start stop, Encloses history start stop ∧ text.length < max start stop := by
  rcases h.answer_cut_cases text with
    ⟨hnone, hanswer⟩ | ⟨_, hnone, hanswer⟩ | ⟨start, stop, hends, hanswer⟩
  · simp [hanswer, h.not_encloses hnone]
  · simp [hanswer, hnone]
  · rw [hanswer, h.exists_encloses_iff hends]
    split
    next hle =>
      refine iff_of_false (fun houtside => ?_) (Nat.not_lt.mpr hle)
      cases houtside
    next hle => exact iff_of_true rfl (Nat.not_le.mp hle)

theorem Represents.answer_cut_eq_missingStart_iff (h : pending.Represents history)
    (text : List Char) :
    pending.answer (.cut text) = .refused .missingStart ↔ ∀ start, ¬ Starts history start := by
  rcases h.answer_cut_cases text with
    ⟨hnone, hanswer⟩ | ⟨⟨start, hstart⟩, _, hanswer⟩ | ⟨start, stop, hends, hanswer⟩
  · simp [hanswer, hnone]
  · simpa [hanswer] using ⟨start, hstart⟩
  · have hstart := h.starts_of_encloses hends
    rw [hanswer]
    split <;> simpa using ⟨start, hstart⟩

theorem Represents.answer_cut_eq_missingStop_iff (h : pending.Represents history)
    (text : List Char) :
    pending.answer (.cut text) = .refused .missingStop ↔
      (∃ start, Starts history start) ∧ ∀ start stop, ¬ Encloses history start stop := by
  rcases h.answer_cut_cases text with
    ⟨hnone, hanswer⟩ | ⟨hstart, hnone, hanswer⟩ | ⟨start, stop, hends, hanswer⟩
  · simp [hanswer, hnone]
  · simpa [hanswer, hnone] using hstart
  · rw [hanswer]
    split <;> simpa using fun _ _ => ⟨start, stop, hends⟩

theorem answer_setStop_eq_refused_iff (pending : Pending) (stop : Nat) (misuse : Misuse) :
    pending.answer (.setStop stop) = .refused misuse ↔ misuse = .zeroStop ∧ stop = 0 := by
  rw [answer]
  by_cases hzero : stop = 0
  · subst hzero
    simp [call_setStop_zero, eq_comm]
  · simp [call_setStop_of_ne_zero hzero, hzero]

theorem call_of_refused {call : Call} {misuse : Misuse}
    (h : pending.answer call = .refused misuse) : (pending.call call).1 = pending := by
  rw [answer] at h
  cases call with
  | setStart start => cases h
  | setStop stop =>
      by_cases hzero : stop = 0
      · rw [hzero, call_setStop_zero]
      · rw [call_setStop_of_ne_zero hzero] at h
        cases h
  | cut text =>
      rcases pending.call_cut_cases text with ⟨_, hcut⟩ | ⟨_, _, _, hcut⟩ | ⟨_, _, _, _, hcut⟩
      · rw [hcut]
      · rw [hcut]
      · rw [hcut] at h
        dsimp only at h
        split at h <;> cases h

theorem call_of_clears {call : Call} (h : Event.Clears (call, pending.answer call)) :
    (pending.call call).1 = {} := by
  rw [answer] at h
  cases call with
  | setStart start => exact h.elim
  | setStop stop => exact h.elim
  | cut text =>
      rcases pending.call_cut_cases text with ⟨_, hcut⟩ | ⟨_, _, _, hcut⟩ | ⟨_, _, _, _, hcut⟩
      · rw [hcut] at h
        exact h.elim
      · rw [hcut] at h
        exact h.elim
      · rw [hcut]

/-- A start leaves nothing of what was pending. -/
theorem after_concat_setStart (pending : Pending) (calls : List Call) (start : Nat) :
    pending.after (calls ++ [.setStart start]) = { start? := some start } := by
  rw [after, List.foldl_append]
  rfl

end Answers

/-- A cut is made of the latest start and of the latest stop behind it, both since the last cut
that used any, and it is refused if one of them is missing. What is refused changes nothing, a cut
that is not refused leaves nothing behind, and a start is the end of whatever came before it. -/
theorem cut_uses_latest (calls : List Call) :
    (∀ text piece, (after {} calls).answer (.cut text) = .piece piece ↔
      ∃ start stop, Encloses (conversation {} calls) start stop ∧
        max start stop ≤ text.length ∧ piece = Span.cut ⟨start, max start stop⟩ text) ∧
    (∀ text, (after {} calls).answer (.cut text) = .outside ↔
      ∃ start stop, Encloses (conversation {} calls) start stop ∧
        text.length < max start stop) ∧
    (∀ text, (after {} calls).answer (.cut text) = .refused .missingStart ↔
      ∀ start, ¬ Starts (conversation {} calls) start) ∧
    (∀ text, (after {} calls).answer (.cut text) = .refused .missingStop ↔
      (∃ start, Starts (conversation {} calls) start) ∧
        ∀ start stop, ¬ Encloses (conversation {} calls) start stop) ∧
    (∀ stop misuse, (after {} calls).answer (.setStop stop) = .refused misuse ↔
      misuse = .zeroStop ∧ stop = 0) ∧
    (∀ call misuse, (after {} calls).answer call = .refused misuse →
      ((after {} calls).call call).1 = after {} calls) ∧
    (∀ call, Event.Clears (call, (after {} calls).answer call) →
      ((after {} calls).call call).1 = {}) ∧
    ∀ start further, conversation (after {} (calls ++ [.setStart start])) further =
      conversation (after {} [.setStart start]) further := by
  have hrepresents := represents_nil.after calls
  rw [List.nil_append] at hrepresents
  refine ⟨hrepresents.answer_cut_eq_piece_iff, hrepresents.answer_cut_eq_outside_iff,
    hrepresents.answer_cut_eq_missingStart_iff, hrepresents.answer_cut_eq_missingStop_iff,
    answer_setStop_eq_refused_iff _, fun call misuse => call_of_refused,
    fun call => call_of_clears, fun start further => ?_⟩
  rw [after_concat_setStart]
  rfl

/-- A stop in front of the start is not used, and a stop of zero does not replace the one before. -/
example :
    (conversation {} [.setStop 3, .setStart 1, .cut ['a', 'b'], .setStop 2, .setStop 0,
      .cut ['a', 'b'], .cut ['a', 'b']]).map (·.2) =
      [.recorded, .recorded, .refused .missingStop, .recorded, .refused .zeroStop, .piece ['b'],
        .refused .missingStart] := by
  decide

end TemplateLexer.Span.Pending
