import Mathlib.Data.List.Chain
import Mathlib.Logic.Relation
import TemplateLexer.Markup.Interpolation

/-! # Reduction of quotes

The quotes of a text form strings by deletion: two equal neighbours are a string
without quotes in it, and once they are gone, others become neighbours. What is
left when nothing can be deleted any more are the quotes of the open strings.
Reading keeps exactly these, on a stack.
-/

namespace TemplateLexer.Quote

/-- The quotes in a text. -/
def quotesIn (text : List Char) : List Quote := text.filterMap ofChar?

theorem quotesIn_append (first second : List Char) :
    quotesIn (first ++ second) = quotesIn first ++ quotesIn second := List.filterMap_append

/-- Deletes two equal neighbours. -/
inductive Cancels : List Quote → List Quote → Prop where
  | mk (before : List Quote) (quote : Quote) (after : List Quote) :
      Cancels (before ++ quote :: quote :: after) (before ++ after)

/-- Deletes equal neighbours any number of times. -/
def Reduces : List Quote → List Quote → Prop := Relation.ReflTransGen Cancels

/-- No two neighbours are equal. -/
def IsReduced (quotes : List Quote) : Prop := quotes.IsChain (· ≠ ·)

/-- Reads a quote, given those that opened the strings around it, the innermost
first. -/
def toggle (opened : List Quote) (quote : Quote) : List Quote :=
  match opened with
  | [] => [quote]
  | innermost :: outer => if innermost = quote then outer else quote :: innermost :: outer

/-- The quotes of the strings that are open behind a list of quotes. -/
def openAfter (quotes : List Quote) : List Quote := quotes.foldl toggle []

section Stack

variable {opened quotes : List Quote}

theorem isReduced_toggle (h : IsReduced opened) (quote : Quote) :
    IsReduced (toggle opened quote) := by
  cases opened with
  | nil => exact .singleton quote
  | cons innermost outer =>
      rw [toggle]
      split
      next => exact h.tail
      next hne => exact .cons_cons (Ne.symm hne) h

theorem isReduced_foldl_toggle (h : IsReduced opened) (quotes : List Quote) :
    IsReduced (quotes.foldl toggle opened) := by
  induction quotes generalizing opened with
  | nil => exact h
  | cons quote rest ih => exact ih (isReduced_toggle h quote)

/-- Reading a quote twice changes nothing. -/
theorem toggle_toggle (h : IsReduced opened) (quote : Quote) :
    toggle (toggle opened quote) quote = opened := by
  cases opened with
  | nil => simp [toggle]
  | cons innermost outer =>
      by_cases heq : innermost = quote
      · subst heq
        cases outer with
        | nil => simp [toggle]
        | cons next rest =>
            have hne : innermost ≠ next := (List.isChain_cons_cons.mp h).1
            simp [toggle, Ne.symm hne]
      · simp [toggle, heq]

theorem Cancels.foldl_toggle_eq {first second : List Quote} (hcancels : Cancels first second)
    (h : IsReduced opened) : first.foldl toggle opened = second.foldl toggle opened := by
  cases hcancels with
  | mk before quote after =>
      have hbefore := isReduced_foldl_toggle h before
      simp only [List.foldl_append, List.foldl_cons, toggle_toggle hbefore]

theorem Reduces.openAfter_eq {first second : List Quote} (h : Reduces first second) :
    openAfter first = openAfter second := by
  induction h with
  | refl => rfl
  | tail _ hcancels ih => exact ih.trans (hcancels.foldl_toggle_eq .nil)

/-- What is reduced is read without closing a string. -/
theorem foldl_toggle_of_isReduced (h : IsReduced (opened.reverse ++ quotes)) :
    quotes.foldl toggle opened = quotes.reverse ++ opened := by
  induction quotes generalizing opened with
  | nil => rfl
  | cons quote rest ih =>
      have htoggle : toggle opened quote = quote :: opened := by
        cases opened with
        | nil => rfl
        | cons innermost outer =>
            rw [List.reverse_cons, List.append_assoc] at h
            have hpair : IsReduced (innermost :: quote :: rest) := h.right_of_append
            rw [toggle, if_neg (List.isChain_cons_cons.mp hpair).1]
      rw [List.foldl_cons, htoggle, ih (by simpa using h)]
      simp

/-- Reading reduces. -/
theorem reduces_foldl_toggle (opened quotes : List Quote) :
    Reduces (opened.reverse ++ quotes) (quotes.foldl toggle opened).reverse := by
  induction quotes generalizing opened with
  | nil =>
      rw [List.append_nil]
      exact .refl
  | cons quote rest ih =>
      rw [List.foldl_cons]
      have hrest := ih (toggle opened quote)
      -- A quote that closes a string cancels with the one that opened it.
      by_cases hcloses : opened.head? = some quote
      · obtain ⟨outer, rfl⟩ := List.head?_eq_some_iff.mp hcloses
        have htoggle : toggle (quote :: outer) quote = outer := if_pos rfl
        rw [htoggle] at hrest ⊢
        refine .head ?_ hrest
        rw [List.reverse_cons, List.append_assoc]
        exact .mk outer.reverse quote rest
      · have htoggle : toggle opened quote = quote :: opened := by
          cases opened with
          | nil => rfl
          | cons innermost outer => exact if_neg (by simpa using hcloses)
        rw [htoggle] at hrest ⊢
        simpa using hrest

/-- The quotes of the open strings are the only reduced list that quotes reduce to. -/
theorem reduces_and_isReduced_iff {reduced : List Quote} :
    Reduces quotes reduced ∧ IsReduced reduced ↔ reduced = (openAfter quotes).reverse := by
  constructor
  · rintro ⟨hreduces, hreduced⟩
    have hread : openAfter reduced = reduced.reverse ++ [] := foldl_toggle_of_isReduced hreduced
    rw [hreduces.openAfter_eq, hread, List.append_nil, List.reverse_reverse]
  · rintro rfl
    have hreduced : IsReduced (openAfter quotes) := isReduced_foldl_toggle .nil quotes
    refine ⟨reduces_foldl_toggle [] quotes, ?_⟩
    exact List.isChain_reverse.mpr (hreduced.imp fun _ _ => Ne.symm)

theorem reduces_nil_iff : Reduces quotes [] ↔ openAfter quotes = [] := by
  have hiff : Reduces quotes [] ∧ IsReduced [] ↔ [] = (openAfter quotes).reverse :=
    reduces_and_isReduced_iff
  rw [eq_comm, List.reverse_eq_nil_iff] at hiff
  exact ⟨fun h => hiff.mp ⟨h, .nil⟩, fun h => (hiff.mpr h).1⟩

end Stack

namespace Nesting

/-- The quotes of the levels below a depth, the innermost first. -/
def stackBelow (nesting : Nesting) : Nat → List Quote
  | 0 => []
  | level + 1 => nesting.quoteAt level :: nesting.stackBelow level

/-- The quotes that opened the open strings, the innermost first. -/
def stack (nesting : Nesting) : List Quote := nesting.stackBelow nesting.depth

variable {nesting next : Nesting} {quote : Quote}

theorem length_stackBelow (nesting : Nesting) (depth : Nat) :
    (nesting.stackBelow depth).length = depth := by
  induction depth with
  | zero => rfl
  | succ level ih => rw [stackBelow, List.length_cons, ih]

theorem length_stack (nesting : Nesting) : nesting.stack.length = nesting.depth :=
  length_stackBelow nesting nesting.depth

theorem stackBelow_congr {first second : Nesting} {depth : Nat}
    (h : ∀ level < depth, first.quoteAt level = second.quoteAt level) :
    first.stackBelow depth = second.stackBelow depth := by
  induction depth with
  | zero => rfl
  | succ level ih =>
      rw [stackBelow, stackBelow, h level (Nat.lt_succ_self level),
        ih fun lower hlower => h lower (Nat.lt_succ_of_lt hlower)]

/-- The record of a level is written in one bit, if the word has room for it, and no other bit is
changed. -/
theorem getLsbD_recordAt (nesting : Nesting) (level : Nat) (quote : Quote) (bit : Nat) :
    (nesting.recordAt level quote).getLsbD bit =
      if bit = level then decide (level < limit) && quote == .single
      else nesting.record.getLsbD bit := by
  by_cases hbit : bit = level
  · subst hbit
    by_cases hroom : bit < 64
    · cases quote <;> simp [recordAt, limit, hroom]
    · have hbeyond : 64 ≤ bit := Nat.le_of_not_lt hroom
      simp [limit, hroom, hbeyond]
  · rw [if_neg hbit]
    cases quote with
    | single => simp [recordAt, Ne.symm hbit]
    | double =>
        simp only [recordAt, BitVec.getLsbD_and, BitVec.getLsbD_not, BitVec.getLsbD_twoPow]
        by_cases hrecord : nesting.record.getLsbD bit
        · have hbound : bit < 64 := BitVec.lt_of_getLsbD hrecord
          simp [Ne.symm hbit, hbound]
        · simp [hrecord]

theorem isOpen_eq_false_iff : nesting.isOpen = false ↔ nesting.stack = [] := by
  rw [← List.length_eq_zero_iff, length_stack]
  simp [isOpen]

theorem innermost?_eq (nesting : Nesting) : nesting.innermost? = nesting.stack.head? := by
  unfold innermost? stack
  cases nesting.depth <;> rfl

/-- The level that is opened has the quote that opens it, and the levels below it keep
theirs. -/
theorem stack_open (hdepth : nesting.depth < limit) (quote : Quote) :
    stack { record := nesting.recordAt nesting.depth quote, depth := nesting.depth + 1 } =
      quote :: nesting.stack := by
  have hbit := getLsbD_recordAt nesting nesting.depth quote
  rw [stack, stackBelow]
  congr 1
  · rw [quoteAt, hbit, if_pos rfl, decide_eq_true hdepth, Bool.true_and]
    cases quote <;> rfl
  · apply stackBelow_congr
    intro level hlevel
    rw [quoteAt, quoteAt, hbit, if_neg (Nat.ne_of_lt hlevel)]

theorem stack_close (h : nesting.innermost? = some quote) :
    quote :: stack { nesting with depth := nesting.depth - 1 } = nesting.stack := by
  obtain ⟨record, depth⟩ := nesting
  cases depth with
  | zero => cases h
  | succ level =>
      obtain rfl := Option.some.inj h
      exact congrArg (List.cons _) (stackBelow_congr fun _ _ => rfl)

/-- A quote is read as on a stack, unless it would open a string beyond the limit. -/
theorem readQuote_cases (hdepth : nesting.depth ≤ limit) (quote : Quote) :
    (∃ next, nesting.readQuote quote = some next ∧ next.stack = toggle nesting.stack quote ∧
      next.depth ≤ limit) ∨
    (nesting.readQuote quote = none ∧ limit < (toggle nesting.stack quote).length) := by
  unfold readQuote
  by_cases hcloses : nesting.innermost? = some quote
  · rw [if_pos hcloses]
    refine .inl ⟨_, rfl, ?_, Nat.le_trans (Nat.sub_le _ _) hdepth⟩
    rw [← stack_close hcloses, toggle, if_pos rfl]
  · have htoggle : toggle nesting.stack quote = quote :: nesting.stack := by
      rw [innermost?_eq] at hcloses
      cases hstack : nesting.stack with
      | nil => rfl
      | cons innermost outer =>
          rw [hstack] at hcloses
          exact if_neg (by simpa using hcloses)
    rw [if_neg hcloses, htoggle]
    by_cases hfull : nesting.depth = limit
    · rw [if_pos hfull]
      refine .inr ⟨rfl, ?_⟩
      rw [List.length_cons, length_stack, hfull]
      exact Nat.lt_succ_self _
    · rw [if_neg hfull]
      have hlevel : nesting.depth < limit := Nat.lt_of_le_of_ne hdepth hfull
      exact .inl ⟨_, rfl, stack_open hlevel quote, hlevel⟩

/-- A character is read as the quote that it is, if it is one. -/
theorem read_cases (hdepth : nesting.depth ≤ limit) (c : Char) :
    (∃ next, nesting.read c = some next ∧
      next.stack = (quotesIn [c]).foldl toggle nesting.stack ∧ next.depth ≤ limit) ∨
    (nesting.read c = none ∧ limit < ((quotesIn [c]).foldl toggle nesting.stack).length) := by
  cases hquote : ofChar? c with
  | none =>
      refine .inl ⟨nesting, ?_, ?_, hdepth⟩
      · rw [read, hquote]
      · simp [quotesIn, hquote]
  | some quote =>
      have hread : nesting.read c = nesting.readQuote quote := by rw [read, hquote]
      have hquotes : (quotesIn [c]).foldl toggle nesting.stack = toggle nesting.stack quote := by
        simp [quotesIn, hquote]
      rw [hread, hquotes]
      exact readQuote_cases hdepth quote

end Nesting

end TemplateLexer.Quote

namespace TemplateLexer.Markup.Interpolation

open Quote

/-- A body that leaves no string open, opens no string beyond the limit, and has no
closing brackets outside of its strings extends up to the brackets behind it. -/
theorem extentFrom_eq_closed {nesting : Nesting} {body rest : List Char}
    (hdepth : nesting.depth ≤ Nesting.limit)
    (hbalanced : (quotesIn body).foldl toggle nesting.stack = [])
    (hbounded : ∀ before, before <+: body →
      ((quotesIn before).foldl toggle nesting.stack).length ≤ Nesting.limit)
    (hfirst : ∀ before after, body ++ ['}', '}'] = before ++ '}' :: '}' :: after →
      (quotesIn before).foldl toggle nesting.stack = [] → body.length ≤ before.length) :
    extentFrom nesting (body ++ '}' :: '}' :: rest) = .closed body.length := by
  induction body generalizing nesting with
  | nil =>
      have hread : nesting.read '}' = some nesting := rfl
      have hopen : nesting.isOpen = false := Nesting.isOpen_eq_false_iff.mpr hbalanced
      simp [extentFrom, hread, hopen]
  | cons c tail ih =>
      have hcons : ∀ text, (quotesIn (c :: text)).foldl toggle nesting.stack =
          (quotesIn text).foldl toggle ((quotesIn [c]).foldl toggle nesting.stack) := fun text => by
        rw [← List.singleton_append, quotesIn_append, List.foldl_append]
      rcases Nesting.read_cases hdepth c with ⟨next, hread, hstack, hnext⟩ | ⟨_, hdeep⟩
      · -- Closing brackets outside of strings would end the body before its length.
        have hgoes : ¬ (!next.isOpen && c == '}' &&
            (tail ++ '}' :: '}' :: rest).head? == some '}') := by
          intro hcloses
          simp only [Bool.and_eq_true, Bool.not_eq_true', beq_iff_eq] at hcloses
          obtain ⟨⟨hopen, rfl⟩, hhead⟩ := hcloses
          have hempty : nesting.stack = [] :=
            hstack.symm.trans (Nesting.isOpen_eq_false_iff.mp hopen)
          obtain ⟨after, hafter⟩ : ∃ after, tail ++ ['}', '}'] = '}' :: after := by
            cases tail with
            | nil => exact ⟨['}'], rfl⟩
            | cons d more => exact ⟨more ++ ['}', '}'], by simpa using hhead⟩
          have hlength := hfirst [] after (by rw [List.cons_append, hafter, List.nil_append]) hempty
          simp at hlength
        rw [hcons, ← hstack] at hbalanced
        rw [List.cons_append, extentFrom, hread]
        dsimp only
        rw [if_neg hgoes, ih hnext hbalanced ?_ ?_]
        · rfl
        · intro before hbefore
          have hbound := hbounded (c :: before) (List.cons_prefix_cons.mpr ⟨rfl, hbefore⟩)
          rwa [hcons, ← hstack] at hbound
        · intro before after heq hnone
          have hlength := hfirst (c :: before) after
            (by rw [List.cons_append, heq, List.cons_append])
            (by rwa [hcons, ← hstack])
          simpa using hlength
      · have hbound := hbounded [c] ⟨tail, rfl⟩
        omega

end TemplateLexer.Markup.Interpolation
