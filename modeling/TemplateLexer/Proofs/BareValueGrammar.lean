import Mathlib.Computability.Language
import TemplateLexer.Proofs.Lookahead
import TemplateLexer.Proofs.Reached
import TemplateLexer.Proofs.TemplateParts
import TemplateLexer.Proofs.TemplateReading

/-! # The grammar of bare values

A bare value is a word of a regular language: a number, or one of two words in any letter case. The
lexer takes as much as can be the beginning of such a word and looks at it afterwards. So it accepts
exactly the words that a blank, the end of the tag or the end of the input follows, and otherwise
it stops in front of the first character with which no value goes on.
-/

namespace TemplateLexer

namespace Markup

open Computability

namespace BareValue

section Grammar

/-- The texts of one digit. -/
def digit : Language Char := {text | ∃ c, c.isDigit ∧ text = [c]}

/-- The texts of at least one digit. -/
def digits : Language Char := digit * digit∗

/-- Digits with at most one point in front of them, among them or behind them. -/
def unsigned : Language Char := digits * (1 + {['.']} * digit∗) + {['.']} * digits

/-- The texts that are a bare value of a kind. -/
def grammar : BareValue → Language Char
  | .number => (1 + {['-']}) * unsigned
  | .boolean truth => {text | text.map Char.toLower = word truth}

variable {text source rest : List Char} {value : BareValue}

theorem mem_kstar_digit_iff : text ∈ digit∗ ↔ ∀ c ∈ text, c.isDigit := by
  rw [Language.mem_kstar]
  constructor
  · rintro ⟨pieces, rfl, hpieces⟩ c hc
    obtain ⟨piece, hpiece, hmem⟩ := List.mem_flatten.mp hc
    obtain ⟨d, hd, rfl⟩ := hpieces piece hpiece
    rwa [List.mem_singleton.mp hmem]
  · intro hdigits
    refine ⟨text.map fun c => [c], (List.flatMap_singleton' text).symm, ?_⟩
    intro piece hpiece
    obtain ⟨c, hc, rfl⟩ := List.mem_map.mp hpiece
    exact ⟨c, hdigits c hc, rfl⟩

theorem mem_digits_iff : text ∈ digits ↔ text ≠ [] ∧ ∀ c ∈ text, c.isDigit := by
  rw [digits, Language.mem_mul]
  constructor
  · rintro ⟨_, ⟨c, hc, rfl⟩, rest, hrest, rfl⟩
    rw [mem_kstar_digit_iff] at hrest
    simpa [hc] using hrest
  · rintro ⟨hne, hdigits⟩
    obtain ⟨c, rest, rfl⟩ := List.exists_cons_of_ne_nil hne
    obtain ⟨hc, hrest⟩ := List.forall_mem_cons.mp hdigits
    exact ⟨[c], ⟨c, hc, rfl⟩, rest, mem_kstar_digit_iff.mpr hrest, rfl⟩

/-- The parts of a number without a sign. -/
theorem mem_unsigned_iff :
    text ∈ unsigned ↔ (text ≠ [] ∧ ∀ c ∈ text, c.isDigit) ∨
      ∃ whole fraction, text = whole ++ '.' :: fraction ∧ (∀ c ∈ whole, c.isDigit) ∧
        (∀ c ∈ fraction, c.isDigit) ∧ (whole ≠ [] ∨ fraction ≠ []) := by
  simp only [unsigned, Language.mem_add, Language.mem_one, Language.mem_mul, mem_digits_iff,
    mem_kstar_digit_iff]
  constructor
  · rintro (⟨whole, ⟨hne, hwhole⟩, _, rfl | ⟨_, rfl, fraction, hfraction, rfl⟩, rfl⟩ |
      ⟨_, rfl, fraction, ⟨hne, hfraction⟩, rfl⟩)
    · exact .inl ⟨by simpa using hne, by simpa using hwhole⟩
    · exact .inr ⟨whole, fraction, rfl, hwhole, hfraction, .inl hne⟩
    · exact .inr ⟨[], fraction, rfl, by simp, hfraction, .inr hne⟩
  · rintro (⟨hne, hdigits⟩ | ⟨whole, fraction, rfl, hwhole, hfraction, hne⟩)
    · exact .inl ⟨text, ⟨hne, hdigits⟩, [], .inl rfl, List.append_nil text⟩
    · by_cases hempty : whole = []
      · subst hempty
        exact .inr ⟨['.'], rfl, fraction, ⟨by simpa using hne, hfraction⟩, rfl⟩
      · exact .inl ⟨whole, ⟨hempty, hwhole⟩, _, .inr ⟨['.'], rfl, fraction, hfraction, rfl⟩, rfl⟩

theorem mem_number_iff :
    text ∈ grammar .number ↔ text ∈ unsigned ∨ ∃ digits ∈ unsigned, text = '-' :: digits := by
  rw [grammar, add_mul, one_mul, Language.mem_add, Language.mem_mul]
  refine or_congr_right ⟨?_, ?_⟩
  · rintro ⟨_, rfl, digits, hdigits, rfl⟩
    exact ⟨digits, hdigits, rfl⟩
  · rintro ⟨digits, hdigits, rfl⟩
    exact ⟨['-'], rfl, digits, hdigits, rfl⟩

/-- The numbers that templates are written with are those of the grammar. -/
theorem mem_unsigned_iff_numeral (negative : Bool) :
    text ∈ unsigned ↔
      ∃ numeral : Template.Numeral, numeral.negative = negative ∧ numeral.unsigned = text := by
  rw [mem_unsigned_iff]
  constructor
  · rintro (⟨hne, hdigits⟩ | ⟨whole, fraction, rfl, hwhole, hfraction, hne⟩)
    · exact ⟨⟨negative, text, none, hdigits, by simp, .inl hne⟩, rfl, rfl⟩
    · exact ⟨⟨negative, whole, some fraction, hwhole, by simpa using hfraction, by simpa using hne⟩,
        rfl, rfl⟩
  · rintro ⟨⟨_, whole, fraction?, hwhole, hfraction, hsome⟩, _, rfl⟩
    cases fraction? with
    | none =>
        have hne : whole ≠ [] := by simpa using hsome
        exact .inl ⟨hne, hwhole⟩
    | some fraction =>
        exact .inr ⟨whole, fraction, rfl, hwhole, by simpa using hfraction, by simpa using hsome⟩

theorem mem_number_iff_numeral :
    text ∈ grammar .number ↔ ∃ numeral : Template.Numeral, numeral.print = text := by
  rw [mem_number_iff]
  constructor
  · rintro (hunsigned | ⟨digits, hdigits, rfl⟩)
    · obtain ⟨numeral, hnegative, rfl⟩ := (mem_unsigned_iff_numeral false).mp hunsigned
      exact ⟨numeral, by simp [Template.Numeral.print, hnegative]⟩
    · obtain ⟨numeral, hnegative, rfl⟩ := (mem_unsigned_iff_numeral true).mp hdigits
      exact ⟨numeral, by simp [Template.Numeral.print, hnegative]⟩
  · rintro ⟨numeral, rfl⟩
    have hunsigned : numeral.unsigned ∈ unsigned :=
      (mem_unsigned_iff_numeral numeral.negative).mpr ⟨numeral, rfl, rfl⟩
    unfold Template.Numeral.print
    split
    · exact .inr ⟨_, hunsigned, rfl⟩
    · exact .inl hunsigned

/-- In front of a boundary, the texts of the grammar are those that the lexer accepts. -/
theorem mem_grammar_iff (hrest : atBoundary rest) :
    source ∈ value.grammar ↔
      value.extent (source ++ rest) = source.length ∧ value.isComplete source := by
  cases value with
  | number =>
      rw [mem_number_iff_numeral]
      constructor
      · rintro ⟨numeral, rfl⟩
        exact ⟨numeral.extent_print hrest, numeral.any_isDigit_print⟩
      · rintro ⟨hextent, hcomplete⟩
        exact exists_numeral hextent hcomplete
  | boolean truth =>
      constructor
      · intro hspelling
        exact ⟨spelled_eq hspelling rest,
          Template.TruthValue.isComplete_text ⟨truth, source, hspelling⟩⟩
      · rintro ⟨hextent, hcomplete⟩
        exact map_toLower_of_spelled hextent (eq_of_beq hcomplete)

theorem ne_nil_of_mem_grammar (h : source ∈ value.grammar) : source ≠ [] := by
  have hend : atBoundary [] := rfl
  exact ne_nil_of_isComplete ((mem_grammar_iff hend).mp h).2

end Grammar

section Viable

variable {text source rest : List Char} {value : BareValue}

/-- A text can be extended to a value of the grammar with its boundary behind it. -/
def IsViable (value : BareValue) (text : List Char) : Prop :=
  ∃ source rest, source ∈ value.grammar ∧ atBoundary rest ∧ text <+: source ++ rest

theorem IsViable.of_isPrefix (h : value.IsViable text) {first : List Char}
    (hfirst : first <+: text) : value.IsViable first := by
  obtain ⟨source, rest, hsource, hrest, hbegins⟩ := h
  exact ⟨source, rest, hsource, hrest, hfirst.trans hbegins⟩

theorem unsigned_append_zero (h : unsignedLength (source ++ rest) = source.length) :
    source ++ ['0'] ∈ unsigned := by
  have hzero : ∀ {run : List Char}, (∀ c ∈ run, c.isDigit) → ∀ c ∈ run ++ ['0'], c.isDigit := by
    intro run hrun
    exact List.forall_mem_append.mpr ⟨hrun, by simp⟩
  rw [mem_unsigned_iff]
  rcases unsigned_cases h with ⟨hdigits, _⟩ | ⟨whole, fraction, rfl, hwhole, hfraction, _⟩
  · exact .inl ⟨by simp, hzero hdigits⟩
  · exact .inr ⟨whole, fraction ++ ['0'], by simp, hwhole, hzero hfraction, by simp⟩

/-- What is measured of a value can be extended to one: a number by a digit, and a word by what
it lacks. -/
theorem isViable_of_extent (h : value.extent (source ++ rest) = source.length) :
    value.IsViable source := by
  suffices hmore : ∃ more, source ++ more ∈ value.grammar by
    obtain ⟨more, hgrammar⟩ := hmore
    exact ⟨source ++ more, [], hgrammar, rfl, by simp⟩
  cases value with
  | number =>
      refine ⟨['0'], mem_number_iff.mpr ?_⟩
      rcases extent_number_cases h with ⟨_, hlength⟩ | ⟨digits, rfl, hlength⟩
      · exact .inl (unsigned_append_zero hlength)
      · exact .inr ⟨digits ++ ['0'], unsigned_append_zero hlength, rfl⟩
  | boolean truth =>
      obtain ⟨more, hmore⟩ := map_toLower_isPrefix_of_spelled h
      have hlower : more.map Char.toLower = more := by
        have hword : (word truth).map Char.toLower = word truth := by cases truth <;> decide
        rw [← hmore, List.map_append] at hword
        exact (List.append_inj' hword (List.length_map ..)).2
      refine ⟨more, ?_⟩
      change (source ++ more).map Char.toLower = word truth
      rw [List.map_append, hlower, hmore]

/-- Where the lexer refuses a value, no value goes on with the next character. -/
theorem not_isViable_of_refused {c : Char}
    (hextent : value.extent (source ++ c :: rest) = source.length)
    (hrefused : (value.isComplete source && atBoundary (c :: rest)) = false) :
    ¬ value.IsViable (source ++ [c]) := by
  rintro ⟨accepted, behind, haccepted, hbehind, more, hmore⟩
  obtain ⟨hlength, hcomplete⟩ := (mem_grammar_iff hbehind).mp haccepted
  -- The extent does not depend on what comes behind the next character.
  have hsame : value.extent (source ++ c :: more) = source.length :=
    extent_exchange hextent fun _ hc => hc
  have htext : accepted ++ behind = source ++ c :: more := by simp [← hmore]
  rw [htext, hsame] at hlength
  obtain ⟨rfl, rfl⟩ := List.append_inj htext hlength.symm
  simp [hcomplete, show atBoundary (c :: rest) from hbehind] at hrefused

end Viable

section Positions

variable {value : BareValue} {input source rest : List Char} {start stop position other : Nat}

/-- Between two positions stands a value of the grammar, in front of its boundary. -/
structure IsValueAt (value : BareValue) (input : List Char) (start stop : Nat) : Prop where
  start_le : start ≤ stop
  stop_le : stop ≤ input.length
  mem : Span.cut ⟨start, stop⟩ input ∈ value.grammar
  boundary : ∀ c ∈ input[stop]?, isBlank c ∨ c = '>'

/-- Up to a position an input can be the beginning of a value, but it ends there or goes on with a
character after which it cannot. -/
structure OffendsAt (value : BareValue) (input : List Char) (start position : Nat) : Prop where
  start_le : start ≤ position
  position_le : position ≤ input.length
  viable : value.IsViable (Span.cut ⟨start, position⟩ input)
  last : position = input.length ∨ ¬ value.IsViable (Span.cut ⟨start, position + 1⟩ input)

theorem atBoundary_drop_iff :
    atBoundary (input.drop stop) ↔ ∀ c ∈ input[stop]?, isBlank c ∨ c = '>' := by
  rw [← List.head?_drop]
  cases input.drop stop <;> simp [atBoundary]

theorem cut_append_drop (hle : start ≤ stop) :
    Span.cut ⟨start, stop⟩ input ++ input.drop stop = input.drop start := by
  obtain ⟨length, rfl⟩ := Nat.exists_eq_add_of_le hle
  rw [Span.cut, List.drop_take, Nat.add_sub_cancel_left, ← List.drop_drop, List.take_append_drop]

/-- A value that is accepted is all that is measured. -/
theorem isValueAt_iff (htext : input.drop start = source ++ rest) (hle : start ≤ input.length)
    (hextent : value.extent (source ++ rest) = source.length) :
    value.IsValueAt input start stop ↔
      stop = start + source.length ∧ value.isComplete source ∧ atBoundary rest := by
  constructor
  · intro h
    have hboundary : atBoundary (input.drop stop) := atBoundary_drop_iff.mpr h.boundary
    obtain ⟨hlength, hcomplete⟩ := (mem_grammar_iff hboundary).mp h.mem
    have happend := (cut_append_drop h.start_le).trans htext
    rw [happend, hextent] at hlength
    obtain ⟨hcut, hdrop⟩ := List.append_inj happend hlength.symm
    rw [hcut] at hcomplete
    rw [hdrop] at hboundary
    refine ⟨?_, hcomplete, hboundary⟩
    rw [hlength, Span.cut, List.length_drop, List.length_take, Nat.min_eq_left h.stop_le]
    exact (Nat.add_sub_of_le h.start_le).symm
  · rintro ⟨rfl, hcomplete, hboundary⟩
    have hrest := drop_add_length htext
    have hlength := congrArg List.length htext
    rw [List.length_drop, List.length_append] at hlength
    constructor
    · exact Nat.le_add_right _ _
    · omega
    · rw [Span.cut_of_drop htext]
      exact (mem_grammar_iff hboundary).mpr ⟨hextent, hcomplete⟩
    · rw [← atBoundary_drop_iff, hrest]
      exact hboundary

theorem OffendsAt.le (h : value.OffendsAt input start position)
    (hother : value.OffendsAt input start other) : position ≤ other := by
  by_contra! hless
  rcases hother.last with hend | hnot
  · exact absurd h.position_le (by omega)
  · apply hnot
    apply h.viable.of_isPrefix
    exact (List.take_prefix_take_left hless).drop start

/-- A value that is refused offends where the measured text ends. -/
theorem offendsAt_iff (htext : input.drop start = source ++ rest) (hle : start ≤ input.length)
    (hextent : value.extent (source ++ rest) = source.length)
    (hrefused : (value.isComplete source && atBoundary rest) = false) :
    value.OffendsAt input start position ↔ position = start + source.length := by
  have hoffends : value.OffendsAt input start (start + source.length) := by
    have hlength := congrArg List.length htext
    rw [List.length_drop, List.length_append] at hlength
    constructor
    · exact Nat.le_add_right _ _
    · omega
    · rw [Span.cut_of_drop htext]
      exact isViable_of_extent hextent
    · cases rest with
      | nil =>
          rw [List.length_nil] at hlength
          exact .inl (by omega)
      | cons c rest =>
          have hnext : input.drop start = (source ++ [c]) ++ rest := by simp [htext]
          have hcut := Span.cut_of_drop hnext
          rw [List.length_append, List.length_singleton, ← Nat.add_assoc] at hcut
          rw [hcut]
          exact .inr (not_isViable_of_refused hextent hrefused)
  constructor
  · intro h
    exact Nat.le_antisymm (h.le hoffends) (hoffends.le h)
  · rintro rfl
    exact hoffends

end Positions

end BareValue

/-- What is measured of a bare value decides what becomes of it: it is read up to the one position
where a value of the grammar ends, or refused at the one position where it offends. -/
theorem Reaches.bareValue_cases {lenient : Bool} {input name : List Char}
    {before : List Fragment} {depth start : Nat} {value : BareValue}
    (h : Reaches lenient input before (.value name depth) start)
    (hfirst : input[start]?.bind BareValue.ofFirst? = some value) :
    (∃ stop, (∀ other, value.IsValueAt input start other ↔ other = stop) ∧
      Advance lenient (.value name depth) (input.drop start)
        [.token value.kind (Span.cut ⟨start, stop⟩ input)] (.tag depth) (input.drop stop)) ∨
    (∀ stop, ¬ value.IsValueAt input start stop) ∧
      ∃ position, (∀ other, value.OffendsAt input start other ↔ other = position) ∧
        Refusal lenient (.value name depth) (input.drop start) []
          ⟨value.malformed, input.drop position⟩ := by
  obtain ⟨source, rest, htext, hextent⟩ : ∃ source rest, input.drop start = source ++ rest ∧
      value.extent (source ++ rest) = source.length := by
    refine ⟨_, _, (List.take_append_drop (value.extent (input.drop start)) _).symm, ?_⟩
    rw [List.take_append_drop, List.length_take_of_le (value.extent_le _)]
  have hrest := drop_add_length htext
  have hvalue : ∀ stop, value.IsValueAt input start stop ↔
      stop = start + source.length ∧ value.isComplete source ∧ BareValue.atBoundary rest :=
    fun stop => BareValue.isValueAt_iff htext h.position_le hextent
  rw [← List.head?_drop, htext] at hfirst
  rw [htext]
  by_cases haccepted : value.isComplete source ∧ BareValue.atBoundary rest
  · obtain ⟨c, tail, rfl⟩ := List.exists_cons_of_ne_nil (BareValue.ne_nil_of_isComplete haccepted.1)
    refine .inl ⟨_, fun other => (hvalue other).trans (and_iff_left haccepted), ?_⟩
    rw [Span.cut_of_drop htext, hrest]
    exact .bareValue hfirst hextent haccepted.1 haccepted.2
  · have hrefused : (value.isComplete source && BareValue.atBoundary rest) = false := by
      rwa [Bool.eq_false_iff, ne_eq, Bool.and_eq_true]
    refine .inr ⟨fun stop hstop => ?_, start + source.length, fun other => ?_, ?_⟩
    · exact haccepted ((hvalue stop).mp hstop).2
    · exact BareValue.offendsAt_iff htext h.position_le hextent hrefused
    · rw [hrest]
      exact .bareValue hfirst hextent hrefused

end Markup

open Markup

/-- A bare value is accepted exactly if a text of its grammar stands there in front of a boundary,
and it is the token of this text then. Otherwise the input is refused at the one position where the
value offends, with the tokens that were read in front of it. -/
theorem lex_bareValue (lenient : Bool) (input : String) {before : List Fragment}
    {name : List Char} {depth start : Nat} {value : BareValue}
    (hreached : Reaches lenient input.toList before (.value name depth) start)
    (hfirst : input.toList[start]?.bind BareValue.ofFirst? = some value) :
    (∀ stop, value.IsValueAt input.toList start stop ↔
      Reaches lenient input.toList
        (before ++ [.token value.kind (Span.cut ⟨start, stop⟩ input.toList)]) (.tag depth) stop) ∧
    (∀ stop, value.IsValueAt input.toList start stop →
      ⟨value.kind, .ofList (Span.cut ⟨start, stop⟩ input.toList), ⟨start, stop⟩⟩ ∈
        (lex { lenient } input).tokens) ∧
    ((∀ stop, ¬ value.IsValueAt input.toList start stop) →
      ∃ position, (∀ other, value.OffendsAt input.toList start other ↔ other = position) ∧
        lex { lenient } input =
          { tokens := (TokenStream.ofFragments before).tokens
            error := some ⟨value.malformed, position⟩ }) := by
  rw [lex_markup]
  rcases hreached.bareValue_cases hfirst with
    ⟨stop, hvalue, hadvance⟩ | ⟨hnone, position, hoffends, hrefusal⟩
  · have hstop := (hvalue stop).mpr rfl
    have hnext := hreached.advance hadvance hstop.stop_le
    have hne := BareValue.ne_nil_of_mem_grammar hstop.mem
    refine ⟨fun other => ⟨fun hother => ?_, fun hother => ?_⟩, fun other hother => ?_,
      fun hnone => ?_⟩
    · rw [(hvalue other).mp hother]
      exact hnext
    · obtain ⟨hrun, hlength⟩ := hreached.run_eq_append hother
      obtain ⟨_, hlengthStop⟩ := hreached.run_eq_append hnext
      have hsame : Span.cut ⟨start, stop⟩ input.toList = Span.cut ⟨start, other⟩ input.toList := by
        rw [run_of_advance hadvance] at hrun
        simpa using congrArg List.head? hrun
      rw [hvalue, hlength, hlengthStop, hsame]
    · rw [(hvalue other).mp hother]
      exact hreached.token_mem hnext hne
    · exact absurd hstop (hnone stop)
  · refine ⟨fun stop => ⟨fun hstop => absurd hstop (hnone stop), fun hstop => ?_⟩,
      fun stop hstop => absurd hstop (hnone stop), fun _ => ⟨position, hoffends, ?_⟩⟩
    · obtain ⟨hrun, _⟩ := hreached.run_eq_append hstop
      rw [run_of_refusal hrefusal] at hrun
      simp at hrun
    · have hle := ((hoffends position).mpr rfl).position_le
      rw [hreached.trace.lexMarkup_of_refusal hrefusal, Failure.toLexError_drop hle]

/-- The lexer comes to a value behind the name of its attribute. -/
theorem reaches_value (rest : List Char) :
    Reaches false ('<' :: 'a' :: ' ' :: 'b' :: '=' :: rest)
      [.tagPunctuation '<', .blanks [], .token .tagName ['a'], .blanks [' '], .attributeName ['b'],
        .blanks [], .equals]
      (.value ['b'] 0) 5 := by
  have hopen : Advance false (.content 0) ('<' :: 'a' :: ' ' :: 'b' :: '=' :: rest)
      [.tagPunctuation '<', .blanks [], .token .tagName ['a']] (.tag 0)
      (' ' :: 'b' :: '=' :: rest) :=
    step_eq_advanced_iff.mp rfl
  have hkey : Advance false (.tag 0) ('b' :: '=' :: rest)
      [.attributeName ['b'], .blanks [], .equals] (.value ['b'] 0) rest :=
    step_eq_advanced_iff.mp rfl
  exact ⟨.step hopen (.step (.blank (by decide)) (.single hkey)), by simp⟩

/-- A word is read in any letter case, and a sign with a point lacks a digit. -/
theorem lex_bareValue_spellings :
    ⟨.literal, "TRUE", ⟨5, 9⟩⟩ ∈ (lex {} "<a b=TRUE>").tokens ∧
      (∀ other, BareValue.OffendsAt .number "<a b=-.>".toList 5 other ↔ other = 7) ∧
      (lex {} "<a b=-.>").error = some ⟨.malformedNumber, 7⟩ := by
  constructor
  · have hvalue : BareValue.IsValueAt (.boolean true) "<a b=TRUE>".toList 5 9 :=
      ⟨by decide, by decide, rfl, BareValue.atBoundary_drop_iff.mp rfl⟩
    exact (lex_bareValue false "<a b=TRUE>" (reaches_value _) (by decide)).2.1 9 hvalue
  · have hnone : ∀ stop, ¬ BareValue.IsValueAt .number "<a b=-.>".toList 5 stop := by
      intro stop hstop
      have htext : "<a b=-.>".toList.drop 5 = ['-', '.'] ++ ['>'] := rfl
      obtain ⟨_, hcomplete, _⟩ := (BareValue.isValueAt_iff htext (by decide) (by decide)).mp hstop
      exact absurd hcomplete (by decide)
    obtain ⟨position, hoffends, hlex⟩ :=
      (lex_bareValue false "<a b=-.>" (reaches_value _) (by decide)).2.2 hnone
    have herror : (lex {} "<a b=-.>").error = some ⟨.malformedNumber, 7⟩ := by decide +kernel
    rw [hlex] at herror
    obtain rfl : position = 7 := congrArg LexError.position (Option.some.inj herror)
    exact ⟨hoffends, congrArg Lexed.error hlex⟩

end TemplateLexer
