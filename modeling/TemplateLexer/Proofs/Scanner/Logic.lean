import TemplateLexer.Proofs.Scanner.Operation
import TemplateLexer.Proofs.Extent
import TemplateLexer.Proofs.QuoteReduction

/-! # Running scanners

Rules for programs that read forward. A scanner is described by what it has not read
yet, which is the end of the input, so a rule says what an operation does to this
end. No operation that such a rule covers is a fault.
-/

namespace TemplateLexer

namespace Scanner

/-- A scanner in front of what is unread of an input. -/
def facing (input unread : List Char) (pending : Span.Pending) (nesting : Quote.Nesting)
    (stream : TokenStream) : Scanner :=
  { reader := { text := input, position := input.length - unread.length }
    pending, nesting, stream }

/-- A program ends with this result, and leaves the scanner like this. -/
def Runs {α : Type} (program : Scan α) (first : Scanner) (result : Except Stop α)
    (last : Scanner) : Prop :=
  program first = some (result, last)

namespace Runs

variable {α β : Type} {first middle last : Scanner} {program : Scan α} {next : α → Scan β}
  {result : Except Stop β}

theorem pure (a : α) : Runs (Pure.pure a) first (.ok a) first := rfl

theorem bind {a : α} (hprogram : Runs program first (.ok a) middle)
    (hnext : Runs (next a) middle result last) : Runs (program >>= next) first result last := by
  have hbind : (program >>= next) first =
      (program first >>= fun outcome => ExceptT.bindCont next outcome.1 outcome.2) := rfl
  rw [Runs, hbind, hprogram]
  exact hnext

theorem bind_stop {stop : Stop} (hprogram : Runs program first (.error stop) last) :
    Runs (program >>= next) first (.error stop) last := by
  have hbind : (program >>= next) first =
      (program first >>= fun outcome => ExceptT.bindCont next outcome.1 outcome.2) := rfl
  rw [Runs, hbind, hprogram]
  rfl

section Loops

variable {σ : Type} {step : σ → Scan (Scan.Progress σ α)} {state further : σ}

theorem loop_done {a : α} (hstep : Runs (step state) first (.ok (.done a)) last) :
    Runs (Scan.loop step state) first (.ok a) last := by
  rw [Scan.loop, Scan.thenLoop]
  exact .bind hstep (.pure a)

theorem loop_again {result : Except Stop α}
    (hstep : Runs (step state) first (.ok (.again further)) middle)
    (hloop : Runs (Scan.loop step further) middle result last) :
    Runs (Scan.loop step state) first result last := by
  rw [Scan.loop, Scan.thenLoop]
  exact .bind hstep hloop

theorem loop_stop {stop : Stop} (hstep : Runs (step state) first (.error stop) last) :
    Runs (Scan.loop step state) first (.error stop) last := by
  rw [Scan.loop, Scan.thenLoop]
  exact .bind_stop hstep

end Loops

theorem discard {a : α} (hprogram : Runs program first (.ok a) last) :
    Runs (Functor.discard program) first (.ok ()) last :=
  .bind hprogram (.pure ())

end Runs

namespace Scan

theorem runs_refuse {α : Type} (cause : LexError.Cause) (position : Nat) (scanner : Scanner) :
    Runs (refuse cause position : Scan α) scanner (.error (.refused { cause, position })) scanner :=
  rfl

theorem runs_check {condition : Bool} (h : condition = true) (fault : Fault) (scanner : Scanner) :
    Runs (check condition fault) scanner (.ok ()) scanner := by
  rw [check, if_pos h]
  rfl

theorem runs_look {α : Type} {f : Scanner → α} {a : α} {scanner : Scanner} (h : f scanner = a) :
    Runs (look f) scanner (.ok a) scanner := by
  rw [Runs, look, ExceptT.mk, h]

variable {input unread rest : List Char} {pending : Span.Pending} {nesting : Quote.Nesting}
  {stream : TokenStream}

section Reading

theorem unread_facing (h : unread <:+ input) :
    (facing input unread pending nesting stream).reader.unread = unread :=
  (List.suffix_iff_eq_drop.mp h).symm

/-- What lies ahead of the reader is what is not read yet. -/
theorem getElem?_ahead (h : unread <:+ input) (offset : Nat) :
    input[input.length - unread.length + offset]? = unread[offset]? := by
  have hunread : unread = input.drop (input.length - unread.length) := List.suffix_iff_eq_drop.mp h
  calc input[input.length - unread.length + offset]?
      = (input.drop (input.length - unread.length))[offset]? := List.getElem?_drop.symm
    _ = unread[offset]? := by rw [← hunread]

theorem peek?_facing (h : unread <:+ input) :
    (facing input unread pending nesting stream).reader.peek? = unread.head? :=
  (getElem?_ahead h 0).trans List.head?_eq_getElem?.symm

/-- What is read moves the position. -/
theorem position_add (first : List Char) (h : first ++ rest <:+ input) :
    input.length - (first ++ rest).length + first.length = input.length - rest.length := by
  have hlength := h.length_le
  rw [List.length_append] at hlength ⊢
  omega

theorem runs_read {α : Type} {f : Reader → α × Reader} {a : α}
    (h : f (facing input unread pending nesting stream).reader =
      (a, { text := input, position := input.length - rest.length })) :
    Runs (read f) (facing input unread pending nesting stream) (.ok a)
      (facing input rest pending nesting stream) := by
  rw [Runs, read, ExceptT.mk, h]
  rfl

theorem runs_position :
    Runs position (facing input unread pending nesting stream) (.ok (input.length - unread.length))
      (facing input unread pending nesting stream) := rfl

theorem runs_atEnd (h : unread <:+ input) :
    Runs atEnd (facing input unread pending nesting stream) (.ok unread.isEmpty)
      (facing input unread pending nesting stream) := by
  have hlength := h.length_le
  have hatEnd : (facing input unread pending nesting stream).reader.atEnd = unread.isEmpty := by
    rw [Bool.eq_iff_iff, Reader.atEnd, decide_eq_true_iff, List.isEmpty_iff_length_eq_zero]
    change input.length ≤ input.length - unread.length ↔ _
    omega
  exact runs_look hatEnd

theorem runs_peek? (h : unread <:+ input) :
    Runs peek? (facing input unread pending nesting stream) (.ok unread.head?)
      (facing input unread pending nesting stream) := by
  exact runs_look (peek?_facing h)

theorem runs_peekAt? (h : unread <:+ input) {offset : Nat}
    (hoffset : 2 * offset < UInt64.size) :
    Runs (peekAt? offset) (facing input unread pending nesting stream) (.ok unread[offset]?)
      (facing input unread pending nesting stream) := by
  apply runs_look
  rw [Reader.peekAt?, Reader.countFrom_eq_add (.inl hoffset)]
  exact getElem?_ahead h offset

theorem runs_startsWith (h : unread <:+ input) (literal : List Char) :
    Runs (startsWith literal) (facing input unread pending nesting stream)
      (.ok (literal.isPrefixOf unread)) (facing input unread pending nesting stream) := by
  apply runs_look
  rw [Reader.startsWith, unread_facing h]

theorem runs_next? {c : Char} (h : c :: rest <:+ input) :
    Runs next? (facing input (c :: rest) pending nesting stream) (.ok (some c))
      (facing input rest pending nesting stream) := by
  apply runs_read
  have hpeek : (facing input (c :: rest) pending nesting stream).reader.peek? = some c :=
    peek?_facing h
  rw [Reader.next?, hpeek, ← position_add [c] h]
  rfl

theorem runs_next?_nil :
    Runs next? (facing input [] pending nesting stream) (.ok none)
      (facing input [] pending nesting stream) := by
  apply runs_read
  have hpeek : (facing input [] pending nesting stream).reader.peek? = none :=
    peek?_facing List.nil_suffix
  rw [Reader.next?, hpeek]
  rfl

theorem runs_skip {first : List Char} (h : first ++ rest <:+ input)
    (hfirst : 2 * first.length < UInt64.size) :
    Runs (skip first.length) (facing input (first ++ rest) pending nesting stream) (.ok ())
      (facing input rest pending nesting stream) := by
  apply runs_read
  have hposition : input.length - rest.length ≤ input.length := Nat.sub_le _ _
  rw [Reader.skip, Reader.countFrom_eq_add (.inl hfirst)]
  change ((), Reader.mk input
    (min (input.length - (first ++ rest).length + first.length) input.length)) = _
  rw [position_add first h, Nat.min_eq_left hposition]

theorem runs_skipWhile {p : Char → Bool} {run : List Char} (h : run ++ rest <:+ input)
    (hrun : ∀ c ∈ run, p c) (hrest : Stops p rest) :
    Runs (skipWhile p) (facing input (run ++ rest) pending nesting stream) (.ok ())
      (facing input rest pending nesting stream) := by
  apply runs_read
  rw [Reader.skipWhile, unread_facing h, takeWhile_append_of_stops hrun hrest, ← position_add run h]
  rfl

theorem runs_takeBlanks {blanks : List Char} (h : blanks ++ rest <:+ input)
    (hblanks : ∀ c ∈ blanks, isBlank c) (hrest : Stops isBlank rest) :
    Runs takeBlanks (facing input (blanks ++ rest) pending nesting stream) (.ok blanks)
      (facing input rest pending nesting stream) := by
  apply runs_read
  rw [Reader.takeBlanks, Reader.skipWhile, unread_facing h,
    takeWhile_append_of_stops hblanks hrest, ← position_add blanks h]
  rfl

/-- The reader may move back to where it was. -/
theorem runs_rewind (unread : List Char) :
    Runs (rewind (input.length - unread.length)) (facing input rest pending nesting stream) (.ok ())
      (facing input unread pending nesting stream) := by
  refine .bind (runs_look rfl) (.bind (runs_check ?_ _ _) (runs_read rfl))
  exact decide_eq_true (Nat.sub_le _ _)

/-- What stands between two positions is cut out there. -/
theorem cut_between {first : List Char} (h : first ++ rest <:+ input) :
    Span.cut ⟨input.length - (first ++ rest).length, input.length - rest.length⟩ input = first := by
  obtain ⟨before, rfl⟩ := h
  have hstart : (before ++ (first ++ rest)).length - (first ++ rest).length = before.length := by
    rw [List.length_append, Nat.add_sub_cancel]
  have hstop : (before ++ (first ++ rest)).length - rest.length = (before ++ first).length := by
    rw [← List.append_assoc, List.length_append, Nat.add_sub_cancel]
  rw [hstart, hstop, Span.cut, ← List.append_assoc, List.take_left, List.drop_left]

theorem runs_slice {first : List Char} (h : first ++ rest <:+ input) :
    Runs (slice (input.length - (first ++ rest).length) (input.length - rest.length))
      (facing input unread pending nesting stream) (.ok first)
      (facing input unread pending nesting stream) :=
  runs_look (cut_between h)

/-- Behind a character there is a position before. -/
theorem runs_previousPosition {c : Char} (h : c :: rest <:+ input) :
    Runs previousPosition (facing input rest pending nesting stream)
      (.ok (input.length - (c :: rest).length)) (facing input rest pending nesting stream) := by
  have hlength := h.length_le
  rw [List.length_cons] at hlength
  refine .bind runs_position (.bind (runs_check ?_ _ _) ?_)
  · rw [bne_iff_ne]
    omega
  · exact .pure _

theorem runs_characterAt {c : Char} (h : c :: rest <:+ input) :
    Runs (characterAt (input.length - (c :: rest).length))
      (facing input unread pending nesting stream) (.ok c)
      (facing input unread pending nesting stream) := by
  have hcharacter : input[input.length - (c :: rest).length]? = some c := by
    obtain ⟨before, rfl⟩ := h
    rw [List.length_append, Nat.add_sub_cancel, List.getElem?_append_right (Nat.le_refl _),
      Nat.sub_self]
    rfl
  exact .bind (runs_look hcharacter) (.pure c)

end Reading

section Spans

theorem runs_hasStart :
    Runs hasStart (facing input unread pending nesting stream) (.ok pending.hasStart)
      (facing input unread pending nesting stream) := runs_look rfl

theorem runs_setStart (start : Nat) :
    Runs (setStart start) (facing input unread pending nesting stream) (.ok ())
      (facing input unread { start? := some start } nesting stream) := rfl

theorem runs_setStop {stop : Nat} (h : 0 < stop) :
    Runs (setStop stop) (facing input unread pending nesting stream) (.ok ())
      (facing input unread { pending with stop? := some stop } nesting stream) := by
  have hstop : (facing input unread pending nesting stream).pending.setStop stop =
      .ok { pending with stop? := some stop } := if_neg (Nat.ne_of_gt h)
  exact .bind (runs_look hstop) rfl

/-- A span with both ends in the text is cut, and none is pending after that. -/
theorem runs_cut {piece : List Char} (h : piece ++ rest <:+ input) :
    Runs cut
      (facing input unread
        { start? := some (input.length - (piece ++ rest).length)
          stop? := some (input.length - rest.length) } nesting stream)
      (.ok piece) (facing input unread {} nesting stream) := by
  have hordered : input.length - (piece ++ rest).length ≤ input.length - rest.length := by
    rw [List.length_append]
    omega
  have hcut : Span.Pending.cut
      { start? := some (input.length - (piece ++ rest).length)
        stop? := some (input.length - rest.length) } input = (.piece piece, {}) := by
    rw [Span.Pending.cut]
    dsimp only
    rw [Nat.max_eq_right hordered, if_pos (Nat.sub_le _ _), cut_between h]
  refine .bind (runs_look rfl) (.bind (runs_check (decide_eq_true hordered) _ _) ?_)
  refine .bind (runs_look hcut) (.bind rfl ?_)
  exact .pure piece

theorem runs_enter :
    Runs enter (facing input unread {} nesting stream) (.ok ())
      (facing input unread {} nesting stream) :=
  .bind (runs_look rfl) (runs_check rfl _ _)

end Spans

section Nesting

/-- No word is shifted by its width as long as no more strings are open than may be. -/
theorem shifts_lt (h : nesting.depth ≤ Quote.Nesting.limit) (c : Char) :
    (shifts nesting c).all (· < 64) := by
  unfold shifts
  split
  next => rfl
  next quote _ =>
    have hlimit : Quote.Nesting.limit = 64 := rfl
    rw [List.all_append, Bool.and_eq_true]
    constructor
    · split
      next => rfl
      next hdepth =>
        simp only [List.all_cons, List.all_nil, Bool.and_true, decide_eq_true_eq]
        omega
    · split
      next => rfl
      next hopens =>
        simp only [List.all_cons, List.all_nil, Bool.and_true, decide_eq_true_eq]
        omega

theorem runs_nesting :
    Runs (look fun scanner => scanner.nesting) (facing input unread pending nesting stream)
      (.ok nesting) (facing input unread pending nesting stream) := runs_look rfl

theorem runs_clearNesting :
    Runs (change fun scanner => { scanner with nesting := {} })
      (facing input unread pending nesting stream) (.ok ())
      (facing input unread pending {} stream) := rfl

theorem runs_readNested {c : Char} {next : Quote.Nesting} (position : Nat)
    (hdepth : nesting.depth ≤ Quote.Nesting.limit) (hread : nesting.read c = some next) :
    Runs (readNested c position) (facing input unread pending nesting stream) (.ok ())
      (facing input unread pending next stream) := by
  refine .bind runs_nesting (.bind (runs_check (shifts_lt hdepth c) _ _) ?_)
  rw [hread]
  rfl

theorem runs_readNested_tooDeep {c : Char} (position : Nat)
    (hdepth : nesting.depth ≤ Quote.Nesting.limit) (hread : nesting.read c = none) :
    Runs (readNested c position) (facing input unread pending nesting stream)
      (.error (.refused { cause := .quoteDepthExceeded, position }))
      (facing input unread pending nesting stream) := by
  refine .bind runs_nesting (.bind (runs_check (shifts_lt hdepth c) _ _) ?_)
  rw [hread]
  rfl

end Nesting

theorem runs_write (lexemes : List Lexeme) :
    Runs (write lexemes) (facing input unread pending nesting stream) (.ok ())
      (facing input unread pending nesting (stream.append lexemes)) := rfl

theorem runs_emit (fragment : Markup.Fragment) :
    Runs (emit fragment) (facing input unread pending nesting stream) (.ok ())
      (facing input unread pending nesting (stream.append fragment.lexemes)) := rfl

end Scan

end Scanner

end TemplateLexer
