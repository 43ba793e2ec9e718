import Mathlib.Order.Bounds.Basic
import TemplateLexer.Proofs.QuoteReduction
import TemplateLexer.Proofs.Tiling

/-! # Where interpolations end

Two things can happen in the body of an interpolation: closing brackets stand where the quotes in
front of them reduce to nothing, or a quote leaves more quotes behind reduction than strings may be
open. Whichever comes first decides what becomes of the interpolation, and if neither comes it has
no end. The lexer finds out by a scan that keeps a stack of quotes; here it is said of positions in
the input and of the reduction of all quotes up to them.
-/

namespace TemplateLexer

open Quote Markup

namespace Markup.Interpolation

section Events

variable {opened : List Quote} {text rest : List Char} {c : Char} {index : Nat}

/-- Closing brackets stand at an index of a text, with no string open in front of them, if the
text begins within the given strings. -/
def ClosesWithin (opened : List Quote) (text : List Char) (index : Nat) : Prop :=
  text[index]? = some '}' ∧ text[index + 1]? = some '}' ∧
    (quotesIn (text.take index)).foldl toggle opened = []

/-- A quote at an index of a text opens one string more than may be open, if the text begins within
the given strings. -/
def ExceedsWithin (opened : List Quote) (text : List Char) (index : Nat) : Prop :=
  (∃ c ∈ text[index]?, (ofChar? c).isSome) ∧
    ((quotesIn (text.take (index + 1))).foldl toggle opened).length = Nesting.limit + 1

/-- Neither happens at an index of a text. -/
def GoesOn (opened : List Quote) (text : List Char) (index : Nat) : Prop :=
  ¬ ClosesWithin opened text index ∧ ¬ ExceedsWithin opened text index

/-- What an extent says of a text: the first thing that happens in it. -/
def Extent.Describes (opened : List Quote) (text : List Char) : Extent → Prop
  | .closed length => ClosesWithin opened text length ∧ ∀ index < length, GoesOn opened text index
  | .tooDeep index => ExceedsWithin opened text index ∧ ∀ earlier < index, GoesOn opened text earlier
  | .unclosed => ∀ index, GoesOn opened text index

theorem foldl_toggle_quotesIn_cons (opened : List Quote) (c : Char) (text : List Char) :
    (quotesIn (c :: text)).foldl toggle opened =
      (quotesIn text).foldl toggle ((quotesIn [c]).foldl toggle opened) := by
  rw [← List.foldl_append, ← quotesIn_append, List.singleton_append]

theorem closesWithin_cons_succ :
    ClosesWithin opened (c :: rest) (index + 1) ↔
      ClosesWithin ((quotesIn [c]).foldl toggle opened) rest index := by
  rw [ClosesWithin, ClosesWithin, List.take_succ_cons, foldl_toggle_quotesIn_cons,
    List.getElem?_cons_succ, List.getElem?_cons_succ]

theorem exceedsWithin_cons_succ :
    ExceedsWithin opened (c :: rest) (index + 1) ↔
      ExceedsWithin ((quotesIn [c]).foldl toggle opened) rest index := by
  rw [ExceedsWithin, ExceedsWithin, List.take_succ_cons, foldl_toggle_quotesIn_cons,
    List.getElem?_cons_succ]

/-- What happens first in a text happens first with a character in front of it, if nothing
happens at that character. -/
theorem Extent.Describes.succ {extent : Extent}
    (h : extent.Describes ((quotesIn [c]).foldl toggle opened) rest)
    (hfirst : GoesOn opened (c :: rest) 0) : extent.succ.Describes opened (c :: rest) := by
  have hshift : ∀ index,
      (∀ inner, index = inner + 1 → GoesOn ((quotesIn [c]).foldl toggle opened) rest inner) →
      GoesOn opened (c :: rest) index := by
    intro index hinner
    cases index with
    | zero => exact hfirst
    | succ inner =>
        rw [GoesOn, closesWithin_cons_succ, exceedsWithin_cons_succ]
        exact hinner inner rfl
  cases extent with
  | closed length =>
      refine ⟨closesWithin_cons_succ.mpr h.1, fun index hindex => hshift index ?_⟩
      rintro inner rfl
      exact h.2 inner (Nat.lt_of_succ_lt_succ hindex)
  | tooDeep deepest =>
      refine ⟨exceedsWithin_cons_succ.mpr h.1, fun index hindex => hshift index ?_⟩
      rintro inner rfl
      exact h.2 inner (Nat.lt_of_succ_lt_succ hindex)
  | unclosed => exact fun index => hshift index fun inner _ => h inner

theorem length_toggle_le (opened : List Quote) (quote : Quote) :
    (toggle opened quote).length ≤ opened.length + 1 := by
  cases opened with
  | nil => exact Nat.le_refl _
  | cons innermost outer =>
      rw [toggle]
      split
      · simp only [List.length_cons]
        omega
      · exact Nat.le_refl _

/-- A character that opens a string too many is a quote, and opens only one. -/
theorem exceedsWithin_zero_iff (hopened : opened.length ≤ Nesting.limit) :
    ExceedsWithin opened (c :: rest) 0 ↔
      Nesting.limit < ((quotesIn [c]).foldl toggle opened).length := by
  have htake : (c :: rest).take (0 + 1) = [c] := rfl
  rw [ExceedsWithin, htake, List.getElem?_cons_zero]
  cases hquote : ofChar? c with
  | none =>
      have hnone : quotesIn [c] = [] := by simp [quotesIn, hquote]
      simp [hnone, hquote]
      omega
  | some quote =>
      have hone : quotesIn [c] = [quote] := by simp [quotesIn, hquote]
      have hlength := length_toggle_le opened quote
      simp [hone, hquote]
      omega

/-- A closing bracket is no quote. -/
theorem ClosesWithin.not_exceedsWithin (h : ClosesWithin opened text index) :
    ¬ ExceedsWithin opened text index := by
  rintro ⟨⟨c, hc, hquote⟩, _⟩
  rw [h.1] at hc
  obtain rfl : '}' = c := Option.some.inj hc
  exact absurd hquote (by decide)

/-- The scan finds what happens first. -/
theorem describes_extentFrom {nesting : Nesting} (hdepth : nesting.depth ≤ Nesting.limit)
    (text : List Char) : (extentFrom nesting text).Describes nesting.stack text := by
  induction text generalizing nesting with
  | nil => simp [extentFrom, Extent.Describes, GoesOn, ClosesWithin, ExceedsWithin]
  | cons c rest ih =>
      have hstackLength : nesting.stack.length ≤ Nesting.limit := by
        rwa [Nesting.length_stack]
      rcases Nesting.read_cases hdepth c with ⟨next, hread, hstack, hnext⟩ | ⟨hread, hdeep⟩
      · rw [extentFrom, hread]
        dsimp only
        have hexceeds : ¬ ExceedsWithin nesting.stack (c :: rest) 0 := by
          rw [exceedsWithin_zero_iff hstackLength, ← hstack, Nesting.length_stack]
          omega
        split
        next hcloses =>
          simp only [Bool.and_eq_true, Bool.not_eq_true', beq_iff_eq] at hcloses
          obtain ⟨⟨hopen, rfl⟩, hhead⟩ := hcloses
          have hempty : nesting.stack = [] :=
            hstack.symm.trans (Nesting.isOpen_eq_false_iff.mp hopen)
          refine ⟨⟨rfl, ?_, hempty⟩, fun index hindex => absurd hindex (Nat.not_lt_zero index)⟩
          rw [List.getElem?_cons_succ, ← List.head?_eq_getElem?, hhead]
        next hgoes =>
          have hcloses : ¬ ClosesWithin nesting.stack (c :: rest) 0 := by
            rintro ⟨hfirst, hsecond, hempty⟩
            obtain rfl : c = '}' := Option.some.inj hfirst
            rw [List.getElem?_cons_succ, ← List.head?_eq_getElem?] at hsecond
            have hopen : next.isOpen = false :=
              Nesting.isOpen_eq_false_iff.mpr (hstack.trans hempty)
            simp [hopen, hsecond] at hgoes
          have hrest := ih hnext
          rw [hstack] at hrest
          exact hrest.succ ⟨hcloses, hexceeds⟩
      · rw [extentFrom, hread]
        refine ⟨(exceedsWithin_zero_iff hstackLength).mpr hdeep, fun index hindex => ?_⟩
        exact absurd hindex (Nat.not_lt_zero index)

end Events

/-- Closing brackets stand at a position behind opening ones, and the quotes between the two
reduce to nothing. -/
def ClosesAt (input : List Char) (opening position : Nat) : Prop :=
  opening + 2 ≤ position ∧ input[position]? = some '}' ∧ input[position + 1]? = some '}' ∧
    Reduces (quotesIn (Span.cut ⟨opening + 2, position⟩ input)) []

/-- A quote stands at a position behind opening brackets, and the quotes from these through it
reduce to one more than there may be open strings. -/
def ExceedsAt (input : List Char) (opening position : Nat) : Prop :=
  opening + 2 ≤ position ∧ (∃ c ∈ input[position]?, (ofChar? c).isSome) ∧
    ∃ reduced, Reduces (quotesIn (Span.cut ⟨opening + 2, position + 1⟩ input)) reduced ∧
      IsReduced reduced ∧ reduced.length = Nesting.limit + 1

/-- The lexer enters an interpolation at a position of an input, between the given number of
subtrees and behind the given fragments. -/
def Enters (lenient : Bool) (input : List Char) (before : List Fragment) (depth opening : Nat) :
    Prop :=
  Trace lenient (.content 0) input before (.content depth) (input.drop opening) ∧
    ['{', '{'] <+: input.drop opening

section Positions

variable {input text : List Char} {opening index : Nat}

theorem getElem?_of_drop (h : input.drop opening = '{' :: '{' :: text) (index : Nat) :
    input[opening + 2 + index]? = text[index]? := by
  rw [← List.getElem?_drop, ← List.drop_drop, h]
  rfl

theorem cut_of_drop (h : input.drop opening = '{' :: '{' :: text) (index : Nat) :
    Span.cut ⟨opening + 2, opening + 2 + index⟩ input = text.take index := by
  rw [Span.cut, List.drop_take, ← List.drop_drop, h]
  simp

theorem closesAt_iff (h : input.drop opening = '{' :: '{' :: text) :
    ClosesAt input opening (opening + 2 + index) ↔ ClosesWithin [] text index := by
  have hsecond : input[opening + 2 + index + 1]? = text[index + 1]? :=
    getElem?_of_drop h (index + 1)
  rw [ClosesAt, ClosesWithin, getElem?_of_drop h, hsecond, cut_of_drop h, reduces_nil_iff]
  exact and_iff_right (Nat.le_add_right _ _)

theorem exceedsAt_iff (h : input.drop opening = '{' :: '{' :: text) :
    ExceedsAt input opening (opening + 2 + index) ↔ ExceedsWithin [] text index := by
  have hreduced : ∀ quotes : List Quote,
      (∃ reduced, Reduces quotes reduced ∧ IsReduced reduced ∧
        reduced.length = Nesting.limit + 1) ↔ (openAfter quotes).length = Nesting.limit + 1 := by
    intro quotes
    simp only [← and_assoc, reduces_and_isReduced_iff, exists_eq_left, List.length_reverse]
  rw [ExceedsAt, ExceedsWithin, getElem?_of_drop h, Nat.add_assoc (opening + 2), cut_of_drop h,
    hreduced]
  exact and_iff_right (Nat.le_add_right _ _)

variable {position : Nat}

theorem ClosesAt.exists_within (hclose : ClosesAt input opening position)
    (h : input.drop opening = '{' :: '{' :: text) :
    ∃ index, position = opening + 2 + index ∧ ClosesWithin [] text index := by
  obtain ⟨index, rfl⟩ := Nat.exists_eq_add_of_le hclose.1
  exact ⟨index, rfl, (closesAt_iff h).mp hclose⟩

theorem ExceedsAt.exists_within (hdeep : ExceedsAt input opening position)
    (h : input.drop opening = '{' :: '{' :: text) :
    ∃ index, position = opening + 2 + index ∧ ExceedsWithin [] text index := by
  obtain ⟨index, rfl⟩ := Nat.exists_eq_add_of_le hdeep.1
  exact ⟨index, rfl, (exceedsAt_iff h).mp hdeep⟩

theorem describes_extent (text : List Char) : (extent text).Describes [] text :=
  @describes_extentFrom {} (Nat.zero_le _) text

/-- The first thing that happens happens in front of everything of another kind. -/
theorem isLeast_of_first {P Q : Nat → Prop} {first : Nat} (hfirst : P first) (hother : ¬ Q first)
    (hbefore : ∀ earlier < first, ¬ P earlier ∧ ¬ Q earlier) :
    IsLeast {position | P position} first ∧ ∀ position, Q position → first < position := by
  refine ⟨⟨hfirst, fun position hposition => ?_⟩, fun position hposition => ?_⟩
  · exact Nat.le_of_not_lt fun hless => (hbefore position hless).1 hposition
  · have hle : first ≤ position :=
      Nat.le_of_not_lt fun hless => (hbefore position hless).2 hposition
    refine Nat.lt_of_le_of_ne hle ?_
    rintro rfl
    exact hother hposition

/-- Where a text goes on, nothing happens in the input. -/
theorem goesOn_at (h : input.drop opening = '{' :: '{' :: text) {length : Nat}
    (hbefore : ∀ index < length, GoesOn [] text index) :
    ∀ earlier < opening + 2 + length,
      ¬ ClosesAt input opening earlier ∧ ¬ ExceedsAt input opening earlier := by
  intro earlier hless
  constructor
  · intro hclose
    obtain ⟨index, rfl, hindex⟩ := hclose.exists_within h
    exact (hbefore index (Nat.lt_of_add_lt_add_left hless)).1 hindex
  · intro hdeep
    obtain ⟨index, rfl, hindex⟩ := hdeep.exists_within h
    exact (hbefore index (Nat.lt_of_add_lt_add_left hless)).2 hindex

/-- A body is closed by the first closing brackets outside of its strings, and opens no string too
many in front of them. -/
theorem first_of_closed (h : input.drop opening = '{' :: '{' :: text) {length : Nat}
    (hextent : extent text = .closed length) :
    IsLeast {position | ClosesAt input opening position} (opening + 2 + length) ∧
      ∀ position, ExceedsAt input opening position → opening + 2 + length < position := by
  have hdescribes := describes_extent text
  rw [hextent] at hdescribes
  obtain ⟨hlast, hbefore⟩ := hdescribes
  apply isLeast_of_first ((closesAt_iff h).mpr hlast)
  · rw [exceedsAt_iff h]
    exact hlast.not_exceedsWithin
  · exact goesOn_at h hbefore

/-- A body that opens a string too many does so before anything closes it. -/
theorem first_of_tooDeep (h : input.drop opening = '{' :: '{' :: text) {deepest : Nat}
    (hextent : extent text = .tooDeep deepest) :
    IsLeast {position | ExceedsAt input opening position} (opening + 2 + deepest) ∧
      ∀ position, ClosesAt input opening position → opening + 2 + deepest < position := by
  have hdescribes := describes_extent text
  rw [hextent] at hdescribes
  obtain ⟨hlast, hbefore⟩ := hdescribes
  apply isLeast_of_first ((exceedsAt_iff h).mpr hlast)
  · rw [closesAt_iff h]
    exact fun hclose => hclose.not_exceedsWithin hlast
  · exact fun earlier hless => (goesOn_at h hbefore earlier hless).symm

theorem none_of_unclosed (h : input.drop opening = '{' :: '{' :: text)
    (hextent : extent text = .unclosed) :
    (∀ position, ¬ ClosesAt input opening position) ∧
      ∀ position, ¬ ExceedsAt input opening position := by
  have hdescribes := describes_extent text
  rw [hextent] at hdescribes
  refine ⟨fun position hclose => ?_, fun position hdeep => ?_⟩
  · obtain ⟨index, rfl, hindex⟩ := hclose.exists_within h
    exact (hdescribes index).1 hindex
  · obtain ⟨index, rfl, hindex⟩ := hdeep.exists_within h
    exact (hdescribes index).2 hindex

end Positions

section Runs

variable {lenient : Bool} {input text : List Char} {before : List Fragment} {depth opening : Nat}

theorem Enters.exists_text (h : Enters lenient input before depth opening) :
    ∃ text, input.drop opening = '{' :: '{' :: text := by
  obtain ⟨text, htext⟩ := h.2
  exact ⟨text, htext.symm⟩

theorem length_of_drop (h : input.drop opening = '{' :: '{' :: text) :
    input.length = opening + 2 + text.length := by
  have hlength := congrArg List.length h
  rw [List.length_drop, List.length_cons, List.length_cons] at hlength
  omega

theorem Enters.lexMarkup_of_tooDeep (h : Enters lenient input before depth opening)
    (htext : input.drop opening = '{' :: '{' :: text) {index : Nat}
    (hextent : extent text = .tooDeep index) :
    lexMarkup lenient input =
      { tokens := (TokenStream.ofFragments before).tokens
        error := some ⟨.quoteDepthExceeded, opening + 2 + index⟩ } := by
  have hrefusal : Refusal lenient (.content depth) ('{' :: '{' :: text) []
      ⟨.quoteDepthExceeded, text.drop index⟩ := .tooDeep hextent
  rw [← htext] at hrefusal
  obtain ⟨seen, c, rest, rfl, _, rfl⟩ := exists_append_of_extentFrom_eq_tooDeep hextent
  rw [h.1.lexMarkup_of_refusal hrefusal, Failure.toLexError, length_of_drop htext, List.drop_left,
    List.length_append, ← Nat.add_assoc, Nat.add_sub_cancel]

theorem Enters.lexMarkup_of_unclosed (h : Enters lenient input before depth opening)
    (htext : input.drop opening = '{' :: '{' :: text) (hextent : extent text = .unclosed) :
    lexMarkup lenient input =
      { tokens := (TokenStream.ofFragments before).tokens
        error := some ⟨.unterminatedInterpolation, opening⟩ } := by
  have hrefusal : Refusal lenient (.content depth) ('{' :: '{' :: text) []
      ⟨.unterminatedInterpolation, '{' :: '{' :: text⟩ := .interpolation hextent
  rw [← htext] at hrefusal
  have hle : opening ≤ input.length := by
    rw [length_of_drop htext]
    omega
  rw [h.1.lexMarkup_of_refusal hrefusal, Failure.toLexError_drop hle]

theorem Enters.trace_of_closed (h : Enters lenient input before depth opening)
    (htext : input.drop opening = '{' :: '{' :: text) {length : Nat}
    (hextent : extent text = .closed length) :
    Trace lenient (.content 0) input
      (before ++ [.interpolation (Span.cut ⟨opening + 2, opening + 2 + length⟩ input)])
      (.content depth) (input.drop (opening + 2 + length + 2)) := by
  obtain ⟨body, rest, rfl, rfl⟩ := exists_append_of_extentFrom_eq_closed hextent
  have hadvance : Advance lenient (.content depth) ('{' :: '{' :: (body ++ '}' :: '}' :: rest))
      [.interpolation body] (.content depth) rest := .interpolation hextent
  rw [← htext] at hadvance
  have hrest : input.drop (opening + 2 + body.length + 2) = rest := by
    have hread : '{' :: '{' :: (body ++ '}' :: '}' :: rest) =
        ('{' :: '{' :: (body ++ ['}', '}'])) ++ rest := by simp
    have hlength : opening + 2 + body.length + 2 =
        opening + ('{' :: '{' :: (body ++ ['}', '}'])).length := by
      simp only [List.length_cons, List.length_append, List.length_nil]
      omega
    rw [hlength, drop_add_length (htext.trans hread)]
  rw [cut_of_drop htext, List.take_left, hrest]
  exact h.1.trans (.single hadvance)

end Runs

end Markup.Interpolation

open Markup.Interpolation

/-- What becomes of an interpolation is decided by the first of two things behind its opening
brackets: closing brackets behind balanced quotes, or a quote that opens a string too many. Nothing
of an interpolation that is refused is emitted. -/
theorem lex_interpolation_extent (lenient : Bool) (input : String) {before : List Fragment}
    {depth opening : Nat} (hentered : Enters lenient input.toList before depth opening) :
    (∀ deep, IsLeast {position | ExceedsAt input.toList opening position} deep →
      (∀ close, ClosesAt input.toList opening close → deep < close) →
      lex { lenient } input =
        { tokens := (TokenStream.ofFragments before).tokens
          error := some ⟨.quoteDepthExceeded, deep⟩ }) ∧
    (∀ close, IsLeast {position | ClosesAt input.toList opening position} close →
      (∀ deep, ExceedsAt input.toList opening deep → ¬ deep < close) →
      Trace lenient (.content 0) input.toList
        (before ++ [.interpolation (Span.cut ⟨opening + 2, close⟩ input.toList)])
        (.content depth) (input.toList.drop (close + 2))) ∧
    ((∀ close, ¬ ClosesAt input.toList opening close) →
      (∀ deep, ¬ ExceedsAt input.toList opening deep) →
      lex { lenient } input =
        { tokens := (TokenStream.ofFragments before).tokens
          error := some ⟨.unterminatedInterpolation, opening⟩ }) := by
  rw [lex_markup]
  obtain ⟨text, htext⟩ := hentered.exists_text
  cases hextent : extent text with
  | closed length =>
      obtain ⟨hfirst, hlater⟩ := first_of_closed htext hextent
      refine ⟨fun deep hdeep hbefore => ?_, fun close hclose _ => ?_, fun hnone _ => ?_⟩
      · exact absurd (hlater deep hdeep.1) (Nat.lt_asymm (hbefore _ hfirst.1))
      · rw [hclose.unique hfirst]
        exact hentered.trace_of_closed htext hextent
      · exact absurd hfirst.1 (hnone _)
  | tooDeep index =>
      obtain ⟨hfirst, hlater⟩ := first_of_tooDeep htext hextent
      refine ⟨fun deep hdeep _ => ?_, fun close hclose hnot => ?_, fun _ hnone => ?_⟩
      · rw [hdeep.unique hfirst]
        exact hentered.lexMarkup_of_tooDeep htext hextent
      · exact absurd (hlater close hclose.1) (hnot _ hfirst.1)
      · exact absurd hfirst.1 (hnone _)
  | unclosed =>
      obtain ⟨hopen, hshallow⟩ := none_of_unclosed htext hextent
      refine ⟨fun deep hdeep _ => absurd hdeep.1 (hshallow deep), fun close hclose _ => ?_,
        fun _ _ => hentered.lexMarkup_of_unclosed htext hextent⟩
      exact absurd hclose.1 (hopen close)

/-- Closing brackets within a string close nothing, the 65th quote in a row that all differ from the
one in front of them is one too many, and a quote that is not closed leaves an interpolation without
an end. -/
theorem lex_interpolation_extent_quotes :
    Trace false (.content 0) "a\x7b\x7b'\x7d\x7d'\x7d\x7db".toList
        [.text ['a'], .interpolation ['\'', '}', '}', '\'']] (.content 0) ['b'] ∧
      lex {} (.ofList ('{' :: '{' :: (List.replicate 33 ['\'', '"']).flatten)) =
        { tokens := [], error := some ⟨.quoteDepthExceeded, 66⟩ } ∧
      lex {} "\x7b\x7b'\x7d\x7d" =
        { tokens := [], error := some ⟨.unterminatedInterpolation, 0⟩ } := by
  refine ⟨?_, ?_, ?_⟩
  · have hentered : Enters false "a\x7b\x7b'\x7d\x7d'\x7d\x7db".toList [.text ['a']] 0 1 :=
      ⟨.single (@Advance.word _ 0 ['a'] _ (by simp) (by decide)), by decide⟩
    obtain ⟨hfirst, hlater⟩ := @first_of_closed "a\x7b\x7b'\x7d\x7d'\x7d\x7db".toList
      ['\'', '}', '}', '\'', '}', '}', 'b'] 1 rfl 4 (by decide)
    exact (lex_interpolation_extent false _ hentered).2.1 7 hfirst
      fun deep hdeep => Nat.lt_asymm (hlater deep hdeep)
  · have htext : (String.ofList ('{' :: '{' ::
        (List.replicate 33 ['\'', '"']).flatten)).toList.drop 0 =
          '{' :: '{' :: (List.replicate 33 ['\'', '"']).flatten := by
      rw [String.toList_ofList, List.drop_zero]
    obtain ⟨hfirst, hlater⟩ := @first_of_tooDeep _ _ 0 htext 64 (by decide +kernel)
    exact (lex_interpolation_extent false _ ⟨.refl, _, htext.symm⟩).1 66 hfirst hlater
  · have hentered : Enters false "\x7b\x7b'\x7d\x7d".toList [] 0 0 := ⟨.refl, by decide⟩
    obtain ⟨hopen, hshallow⟩ :=
      @none_of_unclosed "\x7b\x7b'\x7d\x7d".toList ['\'', '}', '}'] 0 rfl (by decide)
    exact (lex_interpolation_extent false _ hentered).2.2 hopen hshallow

end TemplateLexer
