import TemplateLexer.Proofs.ReaderOperations
import TemplateLexer.Proofs.Scanner.ExpressionRun
import TemplateLexer.Proofs.Scanner.MarkupRun

/-! # How far scanners move

A scanner that is left to itself in a text comes to an end, and stands in the text then, at least
as many characters further as the result of its program tells. This is all that the rules below
say of a program. In return they hold of any scanner that stands in a text, whatever span is
pending and whatever it has written. A program that stops may stop anywhere.
-/

namespace TemplateLexer

namespace Scanner

/-- A program comes to an end, and unless it stops, with a result and a scanner like this. -/
def Ends {α : Type} (program : Scan α) (first : Scanner) (post : α → Scanner → Prop) : Prop :=
  ∃ result last, Runs program first result last ∧ ∀ a, result = .ok a → post a last

namespace Ends

variable {α β : Type} {first middle last : Scanner} {program : Scan α} {next : α → Scan β}

theorem of_runs {a : α} {post : α → Scanner → Prop} (h : Runs program first (.ok a) last)
    (hpost : post a last) : Ends program first post := by
  refine ⟨.ok a, last, h, ?_⟩
  intro b hb
  cases hb
  exact hpost

theorem of_stops {stop : Stop} {post : α → Scanner → Prop}
    (h : Runs program first (.error stop) last) : Ends program first post := by
  refine ⟨.error stop, last, h, ?_⟩
  intro a ha
  cases ha

theorem bind {between : α → Scanner → Prop} {post : β → Scanner → Prop}
    (h : Ends program first between)
    (hnext : ∀ a middle, between a middle → Ends (next a) middle post) :
    Ends (program >>= next) first post := by
  obtain ⟨result, middle, hruns, hmiddle⟩ := h
  cases result with
  | error stop => exact of_stops hruns.bind_stop
  | ok a =>
      obtain ⟨result, last, hlater, hpost⟩ := hnext a middle (hmiddle a rfl)
      exact ⟨result, last, hruns.bind hlater, hpost⟩

/-- An operation that is known to end goes first. -/
theorem after {a : α} {post : β → Scanner → Prop} (h : Runs program first (.ok a) middle)
    (hnext : Ends (next a) middle post) : Ends (program >>= next) first post := by
  obtain ⟨result, last, hlater, hpost⟩ := hnext
  exact ⟨result, last, h.bind hlater, hpost⟩

theorem weaken {post weaker : α → Scanner → Prop} (h : Ends program first post)
    (himplies : ∀ a last, post a last → weaker a last) : Ends program first weaker := by
  obtain ⟨result, last, hruns, hpost⟩ := h
  exact ⟨result, last, hruns, fun a ha => himplies a last (hpost a ha)⟩

/-- A program has one result only. -/
theorem of_eq_ok {a : α} {post : α → Scanner → Prop} (h : Ends program first post)
    (hruns : Runs program first (.ok a) last) : post a last := by
  obtain ⟨result, other, hother, hpost⟩ := h
  obtain ⟨hresult, hlast⟩ := Prod.mk.inj (Option.some.inj (hother.symm.trans hruns))
  rw [← hlast]
  exact hpost a hresult

end Ends

section Steady

/-- A program that does not touch the reader. -/
def Steady {α : Type} (program : Scan α) : Prop :=
  ∀ first, Ends program first fun _ last => last.reader = first.reader

namespace Steady

variable {α β : Type} {program : Scan α} {next : α → Scan β}

theorem pure (a : α) : Steady (Pure.pure a) := fun _ => .of_runs (.pure a) rfl

theorem throw (stop : Stop) : Steady (throw stop : Scan α) := fun _ => .of_stops rfl

theorem bind (h : Steady program) (hnext : ∀ a, Steady (next a)) : Steady (program >>= next) := by
  intro first
  apply (h first).bind
  intro a middle hmiddle
  rw [← hmiddle]
  exact hnext a middle

theorem look (f : Scanner → α) : Steady (Scan.look f) := fun _ => .of_runs rfl rfl

theorem change {f : Scanner → Scanner} (hf : ∀ scanner, (f scanner).reader = scanner.reader) :
    Steady (Scan.change f) := fun first => .of_runs rfl (hf first)

theorem check (condition : Bool) (fault : Fault) : Steady (Scan.check condition fault) := by
  rw [Scan.check]
  split
  next => exact pure ()
  next => exact throw _

theorem refuse (cause : LexError.Cause) :
    Steady (do Scan.refuse cause (← Scan.position) : Scan α) :=
  (look _).bind fun _ => throw _

theorem setStart (start : Nat) : Steady (Scan.setStart start) := change fun _ => rfl

theorem setStop (stop : Nat) : Steady (Scan.setStop stop) := by
  refine (look _).bind fun outcome => ?_
  cases outcome with
  | ok pending => exact change fun _ => rfl
  | error misuse => exact throw _

theorem cut : Steady Scan.cut := by
  refine (look _).bind fun pending => ?_
  extract_lets rest
  have hrest : ∀ u, Steady (rest u) := by
    intro u
    refine (look _).bind fun outcome => ?_
    obtain ⟨piece, cleared⟩ := outcome
    refine .bind (change fun _ => rfl) fun _ => ?_
    cases piece with
    | piece text => exact pure text
    | refused misuse => exact refuse _
    | outside => exact throw _
  split
  next => exact (check _ _).bind hrest
  next => exact hrest ()

theorem enter : Steady Scan.enter := (look _).bind fun _ => check _ _

theorem emit (fragment : Markup.Fragment) : Steady (Scan.emit fragment) := change fun _ => rfl

theorem readNested (c : Char) (position : Nat) : Steady (Scan.readNested c position) := by
  refine (look _).bind fun nesting => (check _ _).bind fun _ => ?_
  split
  next => exact change fun _ => rfl
  next => exact throw _

theorem previousPosition : Steady Scan.previousPosition :=
  (look _).bind fun _ => (check _ _).bind fun _ => pure _

theorem flushText (stop : Nat) : Steady (Markup.flushText stop) := by
  refine (look _).bind fun held => ?_
  split
  next => exact (setStop stop).bind fun _ => cut.bind fun _ => emit _
  next => exact pure ()

theorem holdText (start : Nat) : Steady (Markup.holdText start) := by
  refine (look _).bind fun held => ?_
  split
  next => exact pure ()
  next => exact setStart start

theorem embed (source : List Char) : Steady (Expression.embed source) :=
  fun first => .of_runs (Expression.runs_embed_of_scanner source first) rfl

theorem writeName (name : List Char) : Steady (Markup.writeName name) :=
  (check _ _).bind fun _ => emit _

theorem writeContents (contents name : List Char) :
    Steady (Markup.writeContents contents name) := by
  rw [Markup.writeContents]
  split
  next => exact embed contents
  next => exact emit _

theorem atBoundary : Steady Markup.atBoundary := (look _).bind fun _ => pure _

end Steady

end Steady

/-- How many characters a scanner has left to read. -/
def remaining (scanner : Scanner) : Nat := scanner.reader.text.length - scanner.reader.position

/-- What a step of a loop has to read: something, before the next one, and as much as the loop
has to if it is the last one. -/
def Scan.Progress.count {σ α : Type} (count : α → Nat) : Scan.Progress σ α → Nat
  | .again _ => 1
  | .done a => count a

section Moves

variable {α β : Type} {input : List Char} {limit : Nat} {first : Scanner} {program : Scan α}
  {next : α → Scan β} {count : α → Nat} {total : β → Nat}

/-- From this scanner on, a program comes to an end. Unless it stops, the scanner stands in a text
then, at least as many characters further as the result tells. -/
def MovesFrom (input : List Char) (first : Scanner) (count : α → Nat) (program : Scan α) : Prop :=
  Ends program first fun a last =>
    last.reader.Within input ∧ first.reader.position + count a ≤ last.reader.position

/-- A program moves like this from wherever at most so many characters of a text are left. -/
def Moves (input : List Char) (limit : Nat) (count : α → Nat) (program : Scan α) : Prop :=
  ∀ first, first.reader.Within input → first.remaining ≤ limit →
    MovesFrom input first count program

/-- What is read is no longer left. -/
theorem remaining_add_le {last : Scanner} (hfirst : first.reader.Within input)
    (hlast : last.reader.Within input) {length : Nat}
    (h : first.reader.position + length ≤ last.reader.position) :
    last.remaining + length ≤ first.remaining := by
  have hend := hlast.position_le
  rw [remaining, remaining, hfirst.text_eq, hlast.text_eq]
  omega

/-- No character comes next where none is left. -/
theorem peek?_eq_none_iff (hfirst : first.reader.Within input) :
    first.reader.peek? = none ↔ first.remaining = 0 := by
  have hend := hfirst.position_le
  rw [hfirst.peek?_eq_none_iff, remaining, hfirst.text_eq]
  omega

/-- What follows has less left to read, and need not move as far. -/
theorem MovesFrom.bind (h : MovesFrom input first count program)
    (hfirst : first.reader.Within input) (hlimit : first.remaining ≤ limit)
    (hnext : ∀ a, count a ≤ limit →
      Moves input (limit - count a) (fun b => total b - count a) (next a)) :
    MovesFrom input first total (program >>= next) := by
  apply Ends.bind h
  intro a middle hmiddle
  obtain ⟨hwithin, hposition⟩ := hmiddle
  have hremaining := remaining_add_le hfirst hwithin hposition
  have hmoves := hnext a (by omega) middle hwithin (by omega)
  apply hmoves.weaken
  intro b last hlast
  obtain ⟨hwithin, hlast⟩ := hlast
  dsimp only at hlast
  exact ⟨hwithin, by omega⟩

theorem MovesFrom.pure {a : α} (hfirst : first.reader.Within input) (ha : count a = 0) :
    MovesFrom input first count (Pure.pure a) :=
  .of_runs (.pure a) ⟨hfirst, by rw [ha, Nat.add_zero]⟩

/-- What is looked at stays in sight. -/
theorem MovesFrom.look {f : Scanner → α} (h : MovesFrom input first total (next (f first))) :
    MovesFrom input first total (Scan.look f >>= next) :=
  Ends.after rfl h

/-- A program that does not touch the reader may go first. -/
theorem Steady.bind_movesFrom (h : Steady program)
    (hnext : ∀ a middle, middle.reader = first.reader → MovesFrom input middle total (next a)) :
    MovesFrom input first total (program >>= next) := by
  apply (h first).bind
  intro a middle hmiddle
  have hmoves := hnext a middle hmiddle
  rw [MovesFrom, hmiddle] at hmoves
  exact hmoves

theorem Steady.bind_moves (h : Steady program) (hnext : ∀ a, Moves input limit total (next a)) :
    Moves input limit total (program >>= next) := by
  intro first hfirst hlimit
  apply h.bind_movesFrom
  intro a middle hmiddle
  apply hnext a middle
  · rw [hmiddle]
    exact hfirst
  · rw [remaining, hmiddle]
    exact hlimit

theorem Steady.moves (h : Steady program) : Moves input limit (fun _ => 0) program := by
  intro first hfirst _
  apply (h first).weaken
  intro a last hlast
  rw [hlast]
  exact ⟨hfirst, Nat.le_refl _⟩

namespace Moves

theorem pure {a : α} (ha : count a = 0) : Moves input limit count (Pure.pure a) :=
  fun _ hfirst _ => .pure hfirst ha

theorem throw (stop : Stop) : Moves input limit count (throw stop : Scan α) :=
  fun _ _ _ => .of_stops rfl

theorem refuse (cause : LexError.Cause) :
    Moves input limit count (do Scan.refuse cause (← Scan.position) : Scan α) :=
  (Steady.look _).bind_moves fun _ => throw _

theorem weaken {fewer : α → Nat} (h : Moves input limit count program)
    (hfewer : ∀ a, fewer a ≤ count a) : Moves input limit fewer program := by
  intro first hfirst hlimit
  apply (h first hfirst hlimit).weaken
  intro a last hlast
  have hcount := hfewer a
  exact ⟨hlast.1, by omega⟩

theorem of_le {less : Nat} (h : Moves input limit count program) (hless : less ≤ limit) :
    Moves input less count program :=
  fun first hfirst hlimit => h first hfirst (Nat.le_trans hlimit hless)

theorem bind (h : Moves input limit count program)
    (hnext : ∀ a, count a ≤ limit →
      Moves input (limit - count a) (fun b => total b - count a) (next a)) :
    Moves input limit total (program >>= next) :=
  fun first hfirst hlimit => (h first hfirst hlimit).bind hfirst hlimit hnext

/-- A program that may move or not goes first. -/
theorem bind_moves (h : Moves input limit (fun _ => 0) program)
    (hnext : ∀ a, Moves input limit total (next a)) : Moves input limit total (program >>= next) :=
  h.bind fun a _ => hnext a

/-- What follows may move or not. -/
theorem bind_rest {length : Nat} (h : Moves input limit (fun _ => length) program)
    (hnext : ∀ a, Moves input limit (fun _ => 0) (next a)) :
    Moves input limit (fun _ => length) (program >>= next) := by
  apply h.bind
  intro a _
  apply ((hnext a).of_le (Nat.sub_le _ _)).weaken
  intro _
  exact Nat.le_of_eq (Nat.sub_self _)

theorem discard (h : Moves input limit (fun _ => 0) program) :
    Moves input limit (fun _ => 0) (Functor.discard program) :=
  h.bind_moves fun _ => pure rfl

end Moves

/-- A loop comes to an end if each step reads something before the next one. -/
theorem Moves.loop {σ : Type} {step : σ → Scan (Scan.Progress σ α)}
    (hstep : ∀ limit state, Moves input limit (Scan.Progress.count count) (step state))
    (state : σ) : Moves input limit count (Scan.loop step state) := by
  induction limit using Nat.strong_induction_on generalizing count state with
  | _ limit ih =>
      rw [Scan.loop, Scan.thenLoop]
      refine (hstep limit state).bind fun progress hprogress => ?_
      cases progress with
      | done a => exact .pure (Nat.sub_self _)
      | again further =>
          have hless : limit - 1 < limit := Nat.sub_lt hprogress Nat.one_pos
          exact (ih (limit - 1) hless hstep further).weaken fun a => Nat.sub_le _ _

end Moves

section Reading

variable {α : Type} {input : List Char} {limit : Nat} {first : Scanner}

/-- A scanner moves forward with any operation of its reader that does not rewind. -/
theorem moves_read {f : Reader → α × Reader} (operation : Reader.Operation)
    (hoperation : ∀ reader, (f reader).2 = (reader.perform operation).2)
    (hfits : ∀ position, operation.Fits position) (hforward : ¬ operation.IsRewind) :
    Moves input limit (fun _ => 0) (Scan.read f) := by
  intro first hfirst _
  have hstays : operation.StaysIn input := by
    cases operation with
    | rewind position => exact absurd trivial hforward
    | _ => trivial
  refine .of_runs rfl ⟨?_, ?_⟩
  · change (f first.reader).2.Within input
    rw [hoperation]
    exact hfirst.perform hstays
  · change _ ≤ (f first.reader).2.position
    rw [hoperation]
    exact hfirst.position_le_perform (hfits _) hforward

theorem moves_next? : Moves input limit (fun c => c.toList.length) Scan.next? := by
  intro first hfirst _
  refine .of_runs rfl ⟨?_, ?_⟩
  · have hwithin : (first.reader.perform .next).2.Within input := hfirst.perform trivial
    exact hwithin
  · change first.reader.position + first.reader.next?.1.toList.length ≤
      first.reader.next?.2.position
    rw [Reader.next?_fst, Reader.next?_snd]

theorem moves_discardNext? : Moves input limit (fun _ => 0) (discard Scan.next?) :=
  .discard (moves_next?.weaken fun _ => Nat.zero_le _)

theorem moves_takeBlanks : Moves input limit (fun _ => 0) Scan.takeBlanks :=
  moves_read .takeBlanks (fun _ => rfl) (fun _ => trivial) id

theorem moves_skip {length : Nat} (hlength : 2 * length < UInt64.size) :
    Moves input limit (fun _ => 0) (Scan.skip length) :=
  moves_read (.skip length) (fun _ => rfl) (fun _ => .inl hlength) id

/-- A character that is known to come next is read. -/
theorem movesFrom_next? {c : Char} (hfirst : first.reader.Within input)
    (hpeek : first.reader.peek? = some c) : MovesFrom input first (fun _ => 1) Scan.next? := by
  have hnext : Runs Scan.next? first (.ok (some c))
      { first with reader := first.reader.next?.2 } := by
    rw [← hpeek, ← Reader.next?_fst]
    rfl
  exact .of_runs hnext ((moves_next? first hfirst (Nat.le_refl _)).of_eq_ok hnext)

theorem movesFrom_discardNext? {c : Char} (hfirst : first.reader.Within input)
    (hpeek : first.reader.peek? = some c) :
    MovesFrom input first (fun _ => 1) (discard Scan.next?) :=
  (movesFrom_next? hfirst hpeek).bind hfirst (Nat.le_refl _) fun _ _ => .pure rfl

/-- A loop may go on behind it. -/
theorem movesFrom_again {σ : Type} {count : α → Nat} {c : Char} {state : σ}
    (hfirst : first.reader.Within input) (hpeek : first.reader.peek? = some c) :
    MovesFrom input first (Scan.Progress.count count) (do
      discard Scan.next?
      return .again state) :=
  (movesFrom_discardNext? hfirst hpeek).bind hfirst (Nat.le_refl _) fun _ _ => .pure rfl

/-- A run of a class is read if the next character is of the class. -/
theorem movesFrom_skipWhile {p : Char → Bool} (hfirst : first.reader.Within input)
    (hpeek : first.reader.peek?.any p) :
    MovesFrom input first (fun _ => 1) (Scan.skipWhile p) := by
  obtain ⟨c, hc, hp⟩ := (Option.any_eq_true _ _).mp hpeek
  have hrun := (hfirst.skipWhile_eq p).2
  have hmoved : first.reader.position ≠ (first.reader.skipWhile p).position := by
    intro hsame
    have hnot := hrun.stops c (by rw [← hsame, ← hfirst.peek?_eq, hc]; rfl)
    rw [hp] at hnot
    cases hnot
  refine .of_runs rfl ⟨⟨hfirst.text_eq, hrun.stop_le⟩, ?_⟩
  exact Nat.lt_of_le_of_ne hrun.start_le hmoved

/-- What follows a character that has to come next may move or not. -/
theorem moves_expected {c : Char} {rest : Scan Unit} {cause : LexError.Cause}
    (hrest : ∀ limit, Moves input limit (fun _ => 0) rest) :
    Moves input limit (fun _ => 1) (do
      if (← Scan.peek?) == some c then
        discard Scan.next?
        rest
      else Scan.refuse cause (← Scan.position)) := by
  intro first hfirst hlimit
  apply MovesFrom.look
  split
  next hpeek =>
    refine (movesFrom_discardNext? hfirst (eq_of_beq hpeek)).bind hfirst hlimit ?_
    intro _ _
    exact hrest _
  next => exact Moves.refuse _ first hfirst hlimit

/-- A scanner that moves back is there again. -/
theorem ends_rewind (position : Nat) :
    Ends (Scan.rewind position) first fun _ last => last.reader = first.reader.rewind position := by
  refine .after (Scan.runs_look rfl) (((Steady.check _ _) first).bind ?_)
  intro _ middle hmiddle
  rw [← hmiddle]
  exact .of_runs rfl rfl

end Reading

end Scanner

namespace Scanner.Markup

open TemplateLexer.Markup Scan

variable {input : List Char} {limit : Nat}

theorem moves_interpolationBody (opening : Nat) :
    Moves input limit (fun _ => 1) (interpolationBody opening) := by
  apply Moves.loop
  intro limit _
  refine (Steady.look _).bind_moves fun candidate => moves_next?.bind fun c? _ => ?_
  cases c? with
  | none => exact .throw _
  | some c =>
      refine (Steady.readNested c _).bind_moves fun _ => ?_
      refine (Steady.look _).bind_moves fun nesting => (Steady.look _).bind_moves fun _ => ?_
      split
      next =>
        refine moves_discardNext?.bind_moves fun _ => (Steady.setStop _).bind_moves fun _ => ?_
        exact .pure rfl
      next => exact .pure rfl

theorem moves_interpolation : Moves input limit (fun _ => 1) interpolation := by
  refine Steady.enter.bind_moves fun _ => (Steady.look _).bind_moves fun opening => ?_
  refine (moves_skip (by decide)).bind_moves fun _ => (Steady.look _).bind_moves fun _ => ?_
  refine (Steady.setStart _).bind_moves fun _ => ?_
  refine Steady.bind_moves (Steady.change fun _ => rfl) fun _ => ?_
  refine (moves_interpolationBody opening).bind_rest fun _ => Steady.moves ?_
  refine Steady.cut.bind fun _ => (Steady.emit _).bind fun _ => ?_
  exact (Steady.embed _).bind fun _ => Steady.emit _

/-- A name is read if there is one. -/
theorem moves_identifier : Moves input limit (fun name? => name?.isSome.toNat) identifier := by
  intro first hfirst hlimit
  apply MovesFrom.look
  split
  next hpeek =>
    apply MovesFrom.look
    refine (Steady.setStart _).bind_movesFrom fun _ second hsecond => ?_
    rw [← hsecond] at hfirst hpeek
    refine (movesFrom_skipWhile hfirst hpeek).bind hfirst (Nat.le_refl _) fun _ _ => ?_
    refine (Steady.look _).bind_moves fun _ => (Steady.setStop _).bind_moves fun _ => ?_
    exact Steady.cut.bind_moves fun _ => .pure rfl
  next => exact .pure hfirst rfl

theorem moves_trySlash : Moves input limit (fun _ => 0) trySlash := by
  refine (Steady.look _).bind_moves fun _ => ?_
  split
  next => exact moves_discardNext?.bind_moves fun _ => .pure rfl
  next => exact .pure rfl

theorem moves_closingTag (blanks : List Char) (name : Option (List Char)) :
    Moves input limit (fun _ => 1) (closingTag blanks name) := by
  apply moves_expected
  intro _
  apply Steady.moves
  refine (Steady.emit _).bind fun _ => (Steady.emit _).bind fun _ => ?_
  refine (Steady.emit _).bind fun _ => (Steady.emit _).bind fun _ => ?_
  exact Steady.emit _

theorem moves_angleBracket : Moves input limit (fun _ => 1) angleBracket := by
  refine moves_takeBlanks.bind_moves fun _ => (Steady.emit _).bind_moves fun _ => ?_
  apply moves_expected
  intro _
  exact (Steady.emit _).moves

theorem moves_tagEnd : Moves input limit (fun _ => 1) tagEnd := by
  refine moves_trySlash.bind_moves fun _ => ?_
  split
  next => exact (Steady.emit _).bind_moves fun _ => moves_angleBracket
  next => exact moves_angleBracket

/-- Each step towards the end of a comment reads a character. -/
theorem moves_seekCommentEnd : Moves input limit (fun _ => 0) seekCommentEnd := by
  apply Moves.loop
  intro limit _ first hfirst hlimit
  apply MovesFrom.look
  split
  next => exact .pure hfirst rfl
  next hgoes =>
    apply MovesFrom.look
    split
    next =>
      refine Moves.bind_moves (moves_skip (by decide)) (fun _ => ?_) first hfirst hlimit
      exact .pure rfl
    next =>
      obtain ⟨c, hpeek⟩ : ∃ c, first.reader.peek? = some c := by
        apply Option.ne_none_iff_exists'.mp
        rwa [ne_eq, hfirst.peek?_eq_none_iff, ← hfirst.atEnd_iff]
      exact movesFrom_again hfirst hpeek

/-- The scanner moves back to where it begins to seek. -/
theorem moves_tryCommentEnd (name : List Char) :
    Moves input limit (fun _ => 0) (tryCommentEnd name) := by
  rw [tryCommentEnd]
  split
  next =>
    intro first hfirst hlimit
    apply MovesFrom.look
    apply Ends.bind (moves_seekCommentEnd first hfirst hlimit)
    intro found middle hmiddle
    split
    next => exact .of_runs (.pure true) hmiddle
    next =>
      apply (ends_rewind _).bind
      intro _ last hlast
      refine .of_runs (.pure false) ?_
      rw [hlast]
      exact ⟨⟨hmiddle.1.text_eq, hfirst.position_le⟩, Nat.le_refl _⟩
  next => exact .pure rfl

section Values

/-- Each step through a quoted value reads a character. -/
theorem moves_quotedTail (opening : Nat) (prior : Option Char) :
    Moves input limit (fun _ => 0) (quotedTail opening prior) := by
  apply Moves.loop
  intro limit prior
  refine moves_next?.bind fun c? _ => ?_
  cases c? with
  | none => exact .throw _
  | some c =>
      dsimp only
      split
      next => exact .pure rfl
      next => exact .pure rfl

theorem moves_quotedValue (name : List Char) :
    Moves input limit (fun _ => 0) (quotedValue name) := by
  refine (Steady.look _).bind_moves fun opening => moves_discardNext?.bind_moves fun _ => ?_
  refine (Steady.look _).bind_moves fun _ => (Steady.setStart _).bind_moves fun _ => ?_
  refine (moves_quotedTail opening none).bind_moves fun _ => Steady.moves ?_
  refine Steady.previousPosition.bind fun _ => (Steady.setStop _).bind fun _ => ?_
  refine Steady.cut.bind fun _ => (Steady.emit _).bind fun _ => ?_
  exact (Steady.writeContents _ _).bind fun _ => Steady.emit _

theorem moves_spellWord (cause : LexError.Cause) (word : List Char) :
    Moves input limit (fun _ => 0) (spellWord cause word) := by
  induction word with
  | nil => exact .pure rfl
  | cons expected word ih =>
      refine (Steady.look _).bind_moves fun _ => ?_
      split
      next => exact moves_discardNext?.bind_moves fun _ => ih
      next => exact .refuse _

theorem moves_truthValue (truth : Bool) : Moves input limit (fun _ => 0) (truthValue truth) := by
  refine (Steady.look _).bind_moves fun _ => (moves_spellWord _ _).bind_moves fun _ => ?_
  refine Steady.atBoundary.bind_moves fun _ => Steady.moves ?_
  split
  next => exact (Steady.look _).bind fun _ => (Steady.look _).bind fun _ => Steady.emit _
  next => exact .refuse _

/-- Each step through a number reads a digit or its point. -/
theorem moves_numberTail (hadPoint hadDigit : Bool) :
    Moves input limit (fun _ => 0) (numberTail hadPoint hadDigit) := by
  apply Moves.loop
  intro limit seen first hfirst hlimit
  apply MovesFrom.look
  split
  next => exact .pure hfirst rfl
  next c hpeek =>
    split
    next => exact movesFrom_again hfirst hpeek
    next =>
      split
      next => exact Moves.refuse _ first hfirst hlimit
      next =>
        split
        next => exact movesFrom_again hfirst hpeek
        next => exact .pure hfirst rfl

theorem moves_unsignedValue : Moves input limit (fun _ => 0) unsignedValue := by
  refine (moves_numberTail _ _).bind_moves fun _ => Steady.moves ?_
  refine Steady.atBoundary.bind fun _ => ?_
  split
  next =>
    refine (Steady.look _).bind fun _ => (Steady.setStop _).bind fun _ => ?_
    exact Steady.cut.bind fun _ => Steady.emit _
  next => exact .refuse _

theorem moves_numberValue : Moves input limit (fun _ => 0) numberValue := by
  refine (Steady.look _).bind_moves fun _ => (Steady.setStart _).bind_moves fun _ => ?_
  refine (Steady.look _).bind_moves fun _ => ?_
  split
  next => exact moves_discardNext?.bind_moves fun _ => moves_unsignedValue
  next => exact moves_unsignedValue

end Values

/-- A character of text is read if there is one. -/
theorem movesFrom_takeText {first : Scanner} {c : Char} (hfirst : first.reader.Within input)
    (hpeek : first.reader.peek? = some c) : MovesFrom input first (fun _ => 1) takeText := by
  refine (movesFrom_next? hfirst hpeek).bind hfirst (Nat.le_refl _) fun consumed _ => ?_
  refine (Steady.look _).bind_moves fun _ => ?_
  split
  next => exact moves_discardNext?
  next => exact .pure rfl

end Scanner.Markup

end TemplateLexer
