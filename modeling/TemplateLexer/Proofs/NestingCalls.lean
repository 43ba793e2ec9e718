import TemplateLexer.Proofs.QuoteReduction

/-! # Calls on a nesting of quotes

A caller asks a nesting to read one character after the other, and now and then to forget all
strings. What it learns from a call is whether the character was refused, how many strings are open
behind it, and whether any is. After any calls this is what a stack with room for `limit` quotes
tells, and the stack is what the quotes that were accepted since the last reset reduce to. The
record still has the bits of strings that were closed, but no answer depends on them.
-/

namespace TemplateLexer.Quote

/-- What a nesting can be asked. -/
inductive Call where
  /-- To forget all open strings. -/
  | reset
  | read (c : Char)
deriving DecidableEq

/-- What the caller learns from a call. -/
structure Answer where
  refused : Bool
  depth : Nat
  isOpen : Bool
deriving DecidableEq

namespace Nesting

/-- The nesting behind a call, and whether the call was refused. -/
def call (nesting : Nesting) : Call → Nesting × Bool
  | .reset => ({}, false)
  | .read c => ((nesting.readAll [c]).1, (nesting.readAll [c]).2.isSome)

/-- The nesting behind a sequence of calls. -/
def after (nesting : Nesting) (calls : List Call) : Nesting :=
  calls.foldl (fun nesting call => (nesting.call call).1) nesting

def answer (nesting : Nesting) (call : Call) : Answer :=
  { refused := (nesting.call call).2
    depth := (nesting.call call).1.depth
    isOpen := (nesting.call call).1.isOpen }

/-- The calls of a sequence, each with its answer. -/
def conversation (nesting : Nesting) : List Call → List (Call × Answer)
  | [] => []
  | call :: rest => (call, nesting.answer call) :: (nesting.call call).1.conversation rest

end Nesting

theorem eq_of_single_iff {first second : Quote} (h : first = .single ↔ second = .single) :
    first = second := by
  cases first <;> cases second <;> simp_all

/-- The quotes that are accepted behind a call, given those accepted in front of it. -/
def accept (accepted : List Quote) : Call × Answer → List Quote
  | (.reset, _) => []
  | (.read c, answer) => if answer.refused then accepted else accepted ++ quotesIn [c]

/-- The quotes that were accepted since the last reset of a conversation. -/
def acceptedIn (conversation : List (Call × Answer)) : List Quote := conversation.foldl accept []

namespace Nesting

variable {nesting first second next : Nesting} {accepted : List Quote} {c : Char}

theorem call_read_of_some (h : nesting.read c = some next) :
    nesting.call (.read c) = (next, false) := by
  simp [call, readAll, h]

/-- A refused character leaves the nesting as it was. -/
theorem call_read_of_none (h : nesting.read c = none) :
    nesting.call (.read c) = (nesting, true) := by
  simp [call, readAll, h]

section Stack

/-- The open strings of a nesting are those behind the accepted quotes, and not too many. -/
structure Represents (nesting : Nesting) (accepted : List Quote) : Prop where
  depth_le : nesting.depth ≤ limit
  stack_eq : nesting.stack = openAfter accepted

theorem represents_nil : Represents {} [] := ⟨Nat.zero_le _, rfl⟩

theorem Represents.call (h : nesting.Represents accepted) (call : Call) :
    (nesting.call call).1.Represents (accept accepted (call, nesting.answer call)) := by
  cases call with
  | reset => exact represents_nil
  | read c =>
      rcases read_cases h.depth_le c with ⟨next, hread, hstack, hnext⟩ | ⟨hread, _⟩
      · rw [accept, answer, call_read_of_some hread]
        refine ⟨hnext, ?_⟩
        rw [hstack, h.stack_eq, openAfter, openAfter, ← List.foldl_append]
        rfl
      · rw [accept, answer, call_read_of_none hread]
        exact h

theorem Represents.after (h : nesting.Represents accepted) (calls : List Call) :
    (nesting.after calls).Represents ((nesting.conversation calls).foldl accept accepted) := by
  induction calls generalizing nesting accepted with
  | nil => exact h
  | cons call rest ih => exact ih (h.call call)

theorem reverse_stackBelow (nesting : Nesting) (depth : Nat) :
    (nesting.stackBelow depth).reverse = (List.range depth).map nesting.quoteAt := by
  induction depth with
  | zero => rfl
  | succ level ih => rw [stackBelow, List.reverse_cons, ih, List.range_succ, List.map_append]; rfl

theorem quoteAt_eq_single_iff (nesting : Nesting) (level : Nat) :
    nesting.quoteAt level = .single ↔ nesting.record.getLsbD level := by
  simp [quoteAt]

/-- The only character that is refused is a quote that would open a string where there is no
room for another one. -/
theorem read_eq_none_iff :
    nesting.read c = none ↔
      nesting.depth = limit ∧ ∃ quote ∈ ofChar? c, nesting.innermost? ≠ some quote := by
  rw [read]
  cases ofChar? c with
  | none => simp
  | some quote =>
      simp only [readQuote, Option.mem_some_iff, exists_eq_left']
      by_cases hcloses : nesting.innermost? = some quote
      · simp [hcloses]
      · by_cases hfull : nesting.depth = limit <;> simp [hcloses, hfull]

/-- What can be seen of a nesting, told from the quotes of its open strings, the outermost
first. -/
structure Shows (nesting : Nesting) (opened : List Quote) : Prop where
  depth_eq : nesting.depth = opened.length
  bit_iff : ∀ level quote, opened[level]? = some quote →
    (nesting.record.getLsbD level ↔ quote = .single)
  isOpen_iff : nesting.isOpen ↔ opened ≠ []
  refused_iff : ∀ c, (nesting.call (.read c)).2 ↔
    opened.length = limit ∧ ∃ quote ∈ ofChar? c, opened.getLast? ≠ some quote

theorem shows_reverse_stack (nesting : Nesting) : nesting.Shows nesting.stack.reverse where
  depth_eq := by rw [List.length_reverse, length_stack]
  bit_iff level quote hquote := by
    obtain ⟨hlevel, rfl⟩ := List.getElem?_eq_some_iff.mp hquote
    simp only [stack, reverse_stackBelow, List.getElem_map, List.getElem_range]
    exact (nesting.quoteAt_eq_single_iff level).symm
  isOpen_iff := by
    rw [ne_eq, List.reverse_eq_nil_iff, ← isOpen_eq_false_iff, Bool.not_eq_false]
  refused_iff c := by
    rw [List.length_reverse, length_stack, List.getLast?_reverse, ← innermost?_eq,
      ← read_eq_none_iff]
    cases hread : nesting.read c with
    | none => simp [call_read_of_none hread]
    | some next => simp [call_read_of_some hread]

end Stack

section StaleBits

/-- Two nestings record the same open strings. Bits from their depth on may differ. -/
structure SameLevels (first second : Nesting) : Prop where
  depth_eq : first.depth = second.depth
  bit_eq : ∀ level < first.depth, first.record.getLsbD level = second.record.getLsbD level

theorem SameLevels.innermost?_eq (h : first.SameLevels second) :
    first.innermost? = second.innermost? := by
  unfold innermost?
  rw [← h.depth_eq]
  split
  next => rfl
  next hne => rw [quoteAt, quoteAt, h.bit_eq _ (Nat.sub_one_lt hne)]

theorem SameLevels.closing (h : first.SameLevels second) :
    SameLevels { first with depth := first.depth - 1 }
      { second with depth := first.depth - 1 } where
  depth_eq := rfl
  bit_eq level hlevel := h.bit_eq level (Nat.lt_of_lt_of_le hlevel (Nat.sub_le _ _))

/-- The bit of the level that is opened is written, whatever was there. -/
theorem SameLevels.opening (h : first.SameLevels second) (quote : Quote) :
    SameLevels { record := first.recordAt first.depth quote, depth := first.depth + 1 }
      { record := second.recordAt first.depth quote, depth := first.depth + 1 } where
  depth_eq := rfl
  bit_eq level hlevel := by
    rw [getLsbD_recordAt, getLsbD_recordAt]
    split
    next => rfl
    next hne => exact h.bit_eq level (Nat.lt_of_le_of_ne (Nat.le_of_lt_succ hlevel) hne)

/-- Nestings that record the same open strings read alike. -/
theorem SameLevels.read (h : first.SameLevels second) (c : Char) :
    Option.Rel SameLevels (first.read c) (second.read c) := by
  unfold Nesting.read
  split
  next => exact .some h
  next quote _ =>
    unfold readQuote
    rw [← h.innermost?_eq, ← h.depth_eq]
    split
    next => exact .some h.closing
    next =>
      split
      next => exact .none
      next => exact .some (h.opening quote)

theorem SameLevels.call (h : first.SameLevels second) (call : Call) :
    (first.call call).1.SameLevels (second.call call).1 ∧
      (first.call call).2 = (second.call call).2 := by
  cases call with
  | reset => exact ⟨⟨rfl, fun _ _ => rfl⟩, rfl⟩
  | read c =>
      have hread := h.read c
      cases hfirst : first.read c <;> cases hsecond : second.read c <;>
        rw [hfirst, hsecond] at hread <;> cases hread
      next => simp [call_read_of_none hfirst, call_read_of_none hsecond, h]
      next hnext => simp [call_read_of_some hfirst, call_read_of_some hsecond, hnext]

theorem SameLevels.answer_eq (h : first.SameLevels second) (call : Call) :
    first.answer call = second.answer call := by
  obtain ⟨hnext, hrefused⟩ := h.call call
  simp only [answer, isOpen, hrefused, hnext.depth_eq]

theorem SameLevels.conversation_eq (h : first.SameLevels second) (calls : List Call) :
    first.conversation calls = second.conversation calls := by
  induction calls generalizing first second with
  | nil => rfl
  | cons call rest ih => rw [conversation, conversation, h.answer_eq, ih (h.call call).1]

end StaleBits

/-- Neighbouring levels were opened by different quotes. -/
theorem getLsbD_ne_of_isReduced (h : IsReduced nesting.stack.reverse) {level : Nat}
    (hlevel : level + 1 < nesting.depth) :
    nesting.record.getLsbD level ≠ nesting.record.getLsbD (level + 1) := by
  have hshows := nesting.shows_reverse_stack
  rw [hshows.depth_eq] at hlevel
  have hne := List.isChain_iff_getElem.mp h level hlevel
  intro hbit
  have hlower := hshows.bit_iff level _ (List.getElem?_eq_getElem (Nat.lt_of_succ_lt hlevel))
  have hupper := hshows.bit_iff (level + 1) _ (List.getElem?_eq_getElem hlevel)
  rw [hbit, hupper] at hlower
  exact hne (eq_of_single_iff hlower).symm

/-- After any calls a nesting is a stack of at most `limit` quotes: the one word that the quotes
accepted since the last reset reduce to. A call that is refused changes nothing, and nestings that
record the same open strings give the same answers from then on. -/
theorem calls_refine_stack (calls : List Call) :
    (∃ reduced : List Quote,
      (∀ other, Reduces (acceptedIn (conversation {} calls)) other ∧ IsReduced other ↔
        other = reduced) ∧
      (after {} calls).Shows reduced) ∧
    (∀ level, level + 1 < (after {} calls).depth →
      (after {} calls).record.getLsbD level ≠ (after {} calls).record.getLsbD (level + 1)) ∧
    (∀ call, ((after {} calls).call call).2 → ((after {} calls).call call).1 = after {} calls) ∧
    ∀ first second : Nesting, first.SameLevels second →
      ∀ further, first.conversation further = second.conversation further := by
  have hrepresents : (after {} calls).Represents (acceptedIn (conversation {} calls)) :=
    represents_nil.after calls
  have hreduced : IsReduced (after {} calls).stack.reverse := by
    rw [hrepresents.stack_eq]
    exact (reduces_and_isReduced_iff.mpr rfl).2
  refine ⟨⟨(after {} calls).stack.reverse, fun other => ?_, shows_reverse_stack _⟩,
    fun level hlevel => getLsbD_ne_of_isReduced hreduced hlevel, fun call hrefused => ?_,
    fun first second hsame => hsame.conversation_eq⟩
  · rw [hrepresents.stack_eq]
    exact reduces_and_isReduced_iff
  · cases call with
    | reset => cases hrefused
    | read c =>
        cases hread : (after {} calls).read c with
        | none => rw [call_read_of_none hread]
        | some next => rw [call_read_of_some hread] at hrefused; cases hrefused

/-- Bits of strings that were closed stay in the record, and no answer shows them. -/
theorem calls_refine_stack_staleBits :
    (after {} (['\'', '"', '\'', '\'', '"'].map .read)) = { record := 5, depth := 1 } ∧
      SameLevels { record := 5, depth := 1 } { record := 1, depth := 1 } ∧
      ∀ further, conversation { record := 5, depth := 1 } further =
        conversation { record := 1, depth := 1 } further :=
  have hsame : SameLevels { record := 5, depth := 1 } { record := 1, depth := 1 } :=
    ⟨rfl, by decide⟩
  ⟨by decide, hsame, (calls_refine_stack []).2.2.2 _ _ hsame⟩

end Nesting

end TemplateLexer.Quote
