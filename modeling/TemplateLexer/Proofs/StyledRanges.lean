import TemplateLexer.Highlight
import TemplateLexer.Proofs.Tiling

/-! # Styled ranges

The ranges of a highlighted input are a partition of it: no position is left out
and none is covered twice, whatever is wrong with the input. They are the spans of
the tokens, and behind them at most one more range, which only an error leaves.
-/

namespace TemplateLexer

namespace StyledRange

/-- The ranges lead from one position to another, each of them beginning where the one before it
ends, and none of them is empty. -/
inductive Covers : Nat → List StyledRange → Nat → Prop where
  | nil {start : Nat} : Covers start [] start
  | cons {range : StyledRange} {rest : List StyledRange} {stop : Nat}
      (hne : range.span.start < range.span.stop) (hrest : Covers range.span.stop rest stop) :
      Covers range.span.start (range :: rest) stop

/-- The range covers a position. -/
def Contains (range : StyledRange) (position : Nat) : Prop :=
  range.span.start ≤ position ∧ position < range.span.stop

namespace Covers

variable {start middle stop : Nat} {first second ranges : List StyledRange}

theorem append (hfirst : Covers start first middle) (hsecond : Covers middle second stop) :
    Covers start (first ++ second) stop := by
  induction hfirst with
  | nil => exact hsecond
  | cons hne _ ih => exact .cons hne (ih hsecond)

theorem single (hne : start < stop) (style : Option Style) :
    Covers start [⟨⟨start, stop⟩, style⟩] stop :=
  @cons ⟨⟨start, stop⟩, style⟩ [] stop hne .nil

theorem le (h : Covers start ranges stop) : start ≤ stop := by
  induction h with
  | nil => exact Nat.le_refl _
  | cons hne _ ih => omega

theorem start_le (h : Covers start ranges stop) {range : StyledRange} (hmem : range ∈ ranges) :
    start ≤ range.span.start := by
  induction h with
  | nil => cases hmem
  | cons hne _ ih =>
      rcases List.mem_cons.mp hmem with rfl | htail
      · exact Nat.le_refl _
      · exact hne.le.trans (ih htail)

theorem eq_nil_iff (h : Covers start ranges stop) : ranges = [] ↔ start = stop := by
  cases h with
  | nil => simp
  | cons hne hrest =>
      have hle := hrest.le
      simp only [List.cons_ne_nil, false_iff]
      omega

/-- Every position between the ends is covered by exactly one range. -/
theorem existsUnique_contains (h : Covers start ranges stop) {position : Nat}
    (hstart : start ≤ position) (hstop : position < stop) :
    ∃! range, range ∈ ranges ∧ range.Contains position := by
  induction h with
  | nil => omega
  | @cons head rest stop hne hrest ih =>
      by_cases hhead : position < head.span.stop
      · refine ⟨head, ⟨List.mem_cons_self, hstart, hhead⟩, ?_⟩
        rintro range ⟨hmem, hcontains⟩
        rcases List.mem_cons.mp hmem with rfl | htail
        · rfl
        · have hbehind := hrest.start_le htail
          have hbefore := hcontains.1
          omega
      · obtain ⟨range, ⟨hmem, hcontains⟩, hunique⟩ := ih (Nat.le_of_not_lt hhead) hstop
        refine ⟨range, ⟨List.mem_cons_of_mem _ hmem, hcontains⟩, ?_⟩
        rintro other ⟨hother, hcovers⟩
        rcases List.mem_cons.mp hother with rfl | htail
        · exact absurd hcovers.2 hhead
        · exact hunique other ⟨htail, hcovers⟩

end Covers

end StyledRange

open StyledRange

/-- Tokens that tile a part of the input are styled range by range. -/
theorem Token.Tile.covers {start stop : Nat} {tokens : List Token} (h : Tile start tokens stop) :
    Covers start (tokens.map Highlight.rangeOf) stop := by
  induction h with
  | nil => exact .nil
  | @cons token _ _ hne _ ih => exact @Covers.cons (Highlight.rangeOf token) _ _ hne ih

theorem Highlight.covers_remainder {consumed length : Nat} (h : consumed ≤ length) :
    Covers consumed (remainder consumed length) length := by
  unfold remainder
  split
  next hless => exact .single hless none
  next hall =>
    obtain rfl : consumed = length := by omega
    exact .nil

/-- The ranges of an input partition it. They are the styled spans of its tokens, and one more range
without a style if an error leaves a part of the input without tokens. -/
theorem highlight_partitions (options : Options) (input : String) :
    Covers 0 (highlight options input).ranges input.length ∧
      ((highlight options input).ranges = [] ↔ input.length = 0) ∧
      (∀ position < input.length,
        ∃! range, range ∈ (highlight options input).ranges ∧ range.Contains position) ∧
      (highlight options input).error = (lex options input).error ∧
      ∃ more, (highlight options input).ranges =
          (lex options input).tokens.map (fun token =>
            ⟨token.span, Style.ofToken token.kind token.text⟩) ++ more ∧
        ((lex options input).consumed = input.length ∧ more = [] ∨
          (lex options input).consumed < input.length ∧ (lex options input).error ≠ none ∧
            more = [⟨⟨(lex options input).consumed, input.length⟩, none⟩]) := by
  obtain ⟨htile, hreads, hall, _⟩ := lex_tiles options input
  have hle : (lex options input).consumed ≤ input.length := by
    rw [Lexed.consumed]
    split
    next => exact Nat.zero_le _
    next token hlast => exact (hreads token (List.mem_of_getLast? hlast)).1
  have hcovers : Covers 0 (highlight options input).ranges input.length :=
    htile.covers.append (Highlight.covers_remainder hle)
  refine ⟨hcovers, hcovers.eq_nil_iff.trans eq_comm,
    fun position hposition => hcovers.existsUnique_contains (Nat.zero_le _) hposition, rfl,
    Highlight.remainder (lex options input).consumed input.length, rfl, ?_⟩
  rcases Nat.eq_or_lt_of_le hle with heq | hless
  · exact .inl ⟨heq, if_neg (Nat.not_lt_of_le heq.ge)⟩
  · -- What is read without an error is read to its end.
    have herror : (lex options input).error ≠ none := fun hnone =>
      absurd (hall (by rw [Lexed.isOk, hnone]; rfl)) (Nat.ne_of_lt hless)
    exact .inr ⟨hless, herror, if_pos hless⟩

end TemplateLexer
