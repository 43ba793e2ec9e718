import Mathlib.Data.List.TakeWhile
import TemplateLexer.Markup.Run

/-! # Extents

The scans of the lexer measure how much of a text belongs to a construct. Each
of them is restated here as a way to write the text: the part that belongs to the
construct, followed by what stopped the scan.
-/

namespace TemplateLexer

/-- A text that does not go on with a character of a class, so that a run of the
class before it is maximal. -/
def Stops (p : Char → Bool) (text : List Char) : Prop := ∀ c ∈ text.head?, p c = false

section Runs

variable {p : Char → Bool} {run rest : List Char}

@[simp] theorem stops_nil : Stops p [] := by simp [Stops]

@[simp] theorem stops_cons {c : Char} : Stops p (c :: rest) ↔ p c = false := by simp [Stops]

theorem stops_dropWhile (p : Char → Bool) (text : List Char) : Stops p (text.dropWhile p) := by
  intro c hc
  have hhead := List.head?_dropWhile_not p text
  rw [Option.mem_def.mp hc] at hhead
  exact hhead

theorem takeWhile_eq_nil_of_stops (hrest : Stops p rest) : rest.takeWhile p = [] := by
  cases rest with
  | nil => rfl
  | cons c tail => simp_all

theorem takeWhile_append_of_stops (hrun : ∀ c ∈ run, p c) (hrest : Stops p rest) :
    (run ++ rest).takeWhile p = run := by
  rw [List.takeWhile_append_of_pos hrun, takeWhile_eq_nil_of_stops hrest, List.append_nil]

theorem dropWhile_eq_self_of_stops (hrest : Stops p rest) : rest.dropWhile p = rest := by
  cases rest with
  | nil => rfl
  | cons c tail => simp_all

theorem dropWhile_append_of_stops (hrun : ∀ c ∈ run, p c) (hrest : Stops p rest) :
    (run ++ rest).dropWhile p = rest := by
  rw [List.dropWhile_append_of_pos hrun, dropWhile_eq_self_of_stops hrest]

/-- Every text is a maximal run of a class and what follows it. -/
theorem exists_maximalRun (p : Char → Bool) (text : List Char) :
    ∃ run rest, text = run ++ rest ∧ (∀ c ∈ run, p c) ∧ Stops p rest :=
  ⟨text.takeWhile p, text.dropWhile p, (List.takeWhile_append_dropWhile).symm,
    fun _ hc => List.mem_takeWhile_imp hc, stops_dropWhile p text⟩

theorem leadingDigits_append {digits : List Char} (hdigits : ∀ c ∈ digits, c.isDigit)
    (hrest : Stops Char.isDigit rest) : leadingDigits (digits ++ rest) = digits.length := by
  rw [leadingDigits, takeWhile_append_of_stops hdigits hrest]

end Runs

namespace Markup

namespace Comment

/-- A comment that ends does so behind its terminator. -/
theorem exists_append_of_lengthThroughEnd? {text : List Char} {length : Nat}
    (h : lengthThroughEnd? text = some length) :
    ∃ inside rest, text = inside ++ terminator ++ rest ∧
      (inside ++ terminator).length = length := by
  induction text generalizing length with
  | nil => cases h
  | cons c rest ih =>
      rw [lengthThroughEnd?] at h
      split at h
      next hbegins =>
        obtain ⟨tail, htail⟩ := List.isPrefixOf_iff_prefix.mp hbegins
        exact ⟨[], tail, htail.symm, Option.some.inj h⟩
      next =>
        obtain ⟨tailLength, htail, rfl⟩ := Option.map_eq_some_iff.mp h
        obtain ⟨inside, after, rfl, rfl⟩ := ih htail
        exact ⟨c :: inside, after, by simp, by simp⟩

/-- A text with an end of a comment in it has one, there or before. -/
theorem exists_lengthThroughEnd? (before after : List Char) :
    ∃ length, lengthThroughEnd? (before ++ (terminator ++ after)) = some length ∧
      length ≤ (before ++ terminator).length := by
  induction before with
  | nil => exact ⟨terminator.length, rfl, Nat.le_refl _⟩
  | cons c before ih =>
      obtain ⟨inner, hinner, hle⟩ := ih
      rw [List.cons_append, lengthThroughEnd?]
      split
      next =>
        refine ⟨terminator.length, rfl, ?_⟩
        rw [List.length_append]
        exact Nat.le_add_left _ _
      next => exact ⟨inner + 1, by rw [hinner, Option.map_some], Nat.succ_le_succ hle⟩

/-- A comment does not go on behind an end of it. -/
theorem lengthThroughEnd?_le {before after : List Char} {length : Nat}
    (h : lengthThroughEnd? (before ++ (terminator ++ after)) = some length) :
    length ≤ (before ++ terminator).length := by
  obtain ⟨first, hfirst, hle⟩ := exists_lengthThroughEnd? before after
  rw [hfirst, Option.some_inj] at h
  rwa [← h]

/-- What is commented is the text before the first end, whatever follows. -/
theorem lengthThroughEnd?_eq_iff {text rest : List Char} :
    lengthThroughEnd? (text ++ terminator ++ rest) = some (text ++ terminator).length ↔
      ∀ before after, text ++ terminator = before ++ (terminator ++ after) →
        text.length ≤ before.length := by
  constructor
  · intro h before after heq
    rw [heq, List.append_assoc, List.append_assoc, ← heq] at h
    have hle := lengthThroughEnd?_le h
    rw [List.length_append, List.length_append] at hle
    omega
  · intro hfirst
    induction text with
    | nil => rfl
    | cons c text ih =>
        -- A terminator here would begin before the one behind the text does.
        have hgoes : ¬ terminator.isPrefixOf (c :: (text ++ terminator ++ rest)) := by
          intro hbegins
          have hall : terminator <+: (c :: text ++ terminator) ++ rest :=
            List.isPrefixOf_iff_prefix.mp hbegins
          have hshort : terminator.length ≤ (c :: text ++ terminator).length := by
            rw [List.length_append]
            omega
          obtain ⟨after, hafter⟩ :=
            List.prefix_of_prefix_length_le hall (List.prefix_append _ _) hshort
          have hlength := hfirst [] after hafter.symm
          simp at hlength
        have htail := ih fun before after heq =>
          Nat.le_of_succ_le_succ (hfirst (c :: before) after (congrArg (c :: ·) heq))
        rw [List.cons_append, List.cons_append, lengthThroughEnd?, if_neg hgoes, htail]
        rfl

end Comment

namespace Interpolation

theorem Extent.succ_eq_closed {extent : Extent} {length : Nat} :
    extent.succ = .closed length ↔ ∃ inner, extent = .closed inner ∧ length = inner + 1 := by
  cases extent <;> simp [Extent.succ, eq_comm]

theorem Extent.succ_eq_tooDeep {extent : Extent} {index : Nat} :
    extent.succ = .tooDeep index ↔ ∃ inner, extent = .tooDeep inner ∧ index = inner + 1 := by
  cases extent <;> simp [Extent.succ, eq_comm]

/-- A body that is closed stands before two closing brackets. -/
theorem exists_append_of_extentFrom_eq_closed {nesting : Quote.Nesting} {text : List Char}
    {length : Nat} (h : extentFrom nesting text = .closed length) :
    ∃ body rest, text = body ++ '}' :: '}' :: rest ∧ body.length = length := by
  induction text generalizing nesting length with
  | nil => cases h
  | cons c rest ih =>
      rw [extentFrom] at h
      split at h
      next => cases h
      next inner _ =>
        split at h
        next hcloses =>
          obtain ⟨⟨_, rfl⟩, hnext⟩ : (_ ∧ c = '}') ∧ rest.head? = some '}' := by simpa using hcloses
          obtain ⟨after, rfl⟩ := List.head?_eq_some_iff.mp hnext
          exact ⟨[], after, rfl, by cases h; rfl⟩
        next =>
          obtain ⟨innerLength, hinner, rfl⟩ := Extent.succ_eq_closed.mp h
          obtain ⟨body, after, rfl, rfl⟩ := ih hinner
          exact ⟨c :: body, after, rfl, rfl⟩

/-- Only a quote opens a string too many. -/
theorem exists_append_of_extentFrom_eq_tooDeep {nesting : Quote.Nesting} {text : List Char}
    {index : Nat} (h : extentFrom nesting text = .tooDeep index) :
    ∃ seen c rest, text = seen ++ c :: rest ∧ (Quote.ofChar? c).isSome ∧ seen.length = index := by
  induction text generalizing nesting index with
  | nil => cases h
  | cons c rest ih =>
      rw [extentFrom] at h
      split at h
      next hread =>
        refine ⟨[], c, rest, rfl, ?_, by cases h; rfl⟩
        rw [Option.isSome_iff_ne_none]
        intro hnone
        rw [Quote.Nesting.read, hnone] at hread
        cases hread
      next inner _ =>
        split at h
        next => cases h
        next =>
          obtain ⟨innerIndex, hinner, rfl⟩ := Extent.succ_eq_tooDeep.mp h
          obtain ⟨seen, quote, after, rfl, hquote, rfl⟩ := ih hinner
          exact ⟨c :: seen, quote, after, rfl, hquote, rfl⟩

end Interpolation

namespace QuotedValue

/-- Contents that end do so at a double quote. -/
theorem exists_append_of_contentsLength? {text : List Char} {length : Nat}
    (h : contentsLength? text = some length) :
    ∃ contents rest, text = contents ++ '"' :: rest ∧ contents.length = length := by
  fun_induction contentsLength? text generalizing length with
  | case1 => cases h
  | case2 rest => exact ⟨[], rest, rfl, Option.some.inj h⟩
  | case3 rest ih =>
      obtain ⟨inner, hinner, rfl⟩ := Option.map_eq_some_iff.mp h
      obtain ⟨contents, after, rfl, rfl⟩ := ih hinner
      exact ⟨'\\' :: '"' :: contents, after, rfl, rfl⟩
  | case4 c rest _ _ ih =>
      obtain ⟨inner, hinner, rfl⟩ := Option.map_eq_some_iff.mp h
      obtain ⟨contents, after, rfl, rfl⟩ := ih hinner
      exact ⟨c :: contents, after, rfl, rfl⟩

/-- A character of contents that neither is a quote nor protects one. -/
theorem contentsLength?_cons {c : Char} {tail rest : List Char} (hquote : c ≠ '"')
    (hpair : ∀ after, c = '\\' → tail = '"' :: after → False) (hlast : c = '\\' → tail ≠ []) :
    contentsLength? (c :: (tail ++ '"' :: rest)) =
      (contentsLength? (tail ++ '"' :: rest)).map (· + 1) := by
  refine contentsLength?.eq_4 _ _ hquote fun after hc heq => ?_
  cases tail with
  | nil => exact hlast hc rfl
  | cons d more =>
      obtain ⟨rfl, _⟩ := List.cons.inj heq
      exact hpair more hc rfl

/-- Contents in which every quote is escaped extend up to the quote behind them. -/
theorem contentsLength?_eq {contents : List Char} (rest : List Char)
    (hescaped : ∀ before after, contents = before ++ '"' :: after → before.getLast? = some '\\')
    (hlast : contents.getLast? ≠ some '\\') :
    contentsLength? (contents ++ '"' :: rest) = some contents.length := by
  fun_induction contentsLength? contents with
  | case1 => rfl
  | case2 tail => cases hescaped [] tail rfl
  | case3 tail ih =>
      rw [List.cons_append, List.cons_append, contentsLength?, ih]
      · rfl
      · intro before after heq
        have hbefore := hescaped ('\\' :: '"' :: before) after (by rw [heq]; rfl)
        cases before with
        | nil => cases hbefore
        | cons c more => simpa using hbefore
      · intro htail
        exact hlast (by simp [List.getLast?_cons, htail])
  | case4 c tail hquote hpair ih =>
      have hne : c = '\\' → tail ≠ [] := by
        rintro rfl rfl
        exact hlast rfl
      rw [List.cons_append, contentsLength?_cons hquote hpair hne, ih]
      · rfl
      · intro before after heq
        have hbefore := hescaped (c :: before) after (by rw [heq]; rfl)
        cases before with
        | nil =>
            obtain rfl := Option.some.inj hbefore
            exact (hpair after rfl heq).elim
        | cons d more => simpa using hbefore
      · intro htail
        exact hlast (by simp [List.getLast?_cons, htail])

/-- Every quote in contents that end is escaped, and the one behind them is not. -/
theorem escaped_of_contentsLength? {contents rest : List Char}
    (h : contentsLength? (contents ++ '"' :: rest) = some contents.length) :
    (∀ before after, contents = before ++ '"' :: after → before.getLast? = some '\\') ∧
      contents.getLast? ≠ some '\\' := by
  fun_induction contentsLength? contents with
  | case1 => simp
  | case2 tail => cases h
  | case3 tail ih =>
      obtain ⟨length, hlength, hsucc⟩ := Option.map_eq_some_iff.mp h
      obtain rfl : length = tail.length := by simpa using hsucc
      obtain ⟨hescaped, hlast⟩ := ih hlength
      constructor
      · intro before after heq
        rcases before with _ | ⟨c, _ | ⟨d, before⟩⟩
        · cases heq
        · obtain ⟨rfl, _⟩ := List.cons.inj heq
          rfl
        · have htail : tail = before ++ '"' :: after := (List.cons.inj (List.cons.inj heq).2).2
          simp [List.getLast?_cons, hescaped before after htail]
      · cases tail with
        | nil => decide
        | cons c tail => rwa [List.getLast?_cons_cons, List.getLast?_cons_cons]
  | case4 c tail hquote hpair ih =>
      have hne : c = '\\' → tail ≠ [] := by
        rintro rfl rfl
        rw [List.cons_append, List.nil_append, contentsLength?] at h
        obtain ⟨length, _, hlength⟩ := Option.map_eq_some_iff.mp h
        simp at hlength
      rw [List.cons_append, contentsLength?_cons hquote hpair hne] at h
      obtain ⟨length, hlength, hsucc⟩ := Option.map_eq_some_iff.mp h
      obtain rfl : length = tail.length := by simpa using hsucc
      obtain ⟨hescaped, hlast⟩ := ih hlength
      constructor
      · intro before after heq
        cases before with
        | nil => exact absurd (List.cons.inj heq).1 hquote
        | cons d before =>
            have htail : tail = before ++ '"' :: after := (List.cons.inj heq).2
            simp [List.getLast?_cons, hescaped before after htail]
      · cases tail with
        | nil => exact fun hc => hne (Option.some.inj hc) rfl
        | cons d tail => rwa [List.getLast?_cons_cons]

end QuotedValue

namespace Text

theorem wordLength_le (closes : Bool) (text : List Char) :
    wordLength closes text ≤ text.length := by
  fun_induction wordLength closes text <;> simp_all

/-- Where a word ends, no word begins. -/
theorem wordLength_eq_zero_iff {closes : Bool} {c : Char} {rest : List Char} :
    wordLength closes (c :: rest) = 0 ↔ endsWord closes c rest := by
  constructor
  · intro hzero
    by_contra hends
    have := wordLength_pos (Bool.eq_false_iff.mpr hends)
    omega
  · intro hends
    have hc : c ≠ '\\' := by
      rintro rfl
      revert hends
      cases closes <;> simp [endsWord, show isBlank '\\' = false by decide]
    rw [wordLength, if_pos hends]
    exact fun _ _ heq _ => hc heq

theorem wordLength_drop (closes : Bool) (text : List Char) :
    wordLength closes (text.drop (wordLength closes text)) = 0 := by
  fun_induction wordLength closes text with
  | case1 => rfl
  | case2 c rest _ ih => exact ih
  | case3 c rest _ ih => exact ih
  | case4 c rest _ hends => exact wordLength_eq_zero_iff.mpr hends
  | case5 c rest _ _ ih => exact ih

/-- No word begins where one ends. -/
theorem wordLength_eq_zero_of_append {closes : Bool} {word rest : List Char}
    (h : wordLength closes (word ++ rest) = word.length) : wordLength closes rest = 0 := by
  have hdrop := wordLength_drop closes (word ++ rest)
  rwa [h, List.drop_left] at hdrop

section WordLength

variable {closes : Bool} {c : Char} {rest : List Char}

theorem wordLength_escaped (hc : isEscapable c) :
    wordLength closes ('\\' :: c :: rest) = wordLength closes rest + 2 := by
  rw [wordLength, if_pos hc]

theorem wordLength_backslash (hrest : ∀ c ∈ rest.head?, isEscapable c = false) :
    wordLength closes ('\\' :: rest) = wordLength closes rest + 1 := by
  cases rest with
  | nil => cases closes <;> rfl
  | cons c tail =>
      have hc : isEscapable c = false := hrest c rfl
      rw [wordLength, if_neg (by simp [hc])]

theorem wordLength_plain (hc : c ≠ '\\') (hends : endsWord closes c rest = false) :
    wordLength closes (c :: rest) = wordLength closes rest + 1 := by
  rw [wordLength, if_neg (by simp [hends])]
  exact fun _ _ heq _ => hc heq

theorem wordLength_cons (hends : endsWord closes c rest = false)
    (hbackslash : c = '\\' → ∀ d ∈ rest.head?, isEscapable d = false) :
    wordLength closes (c :: rest) = wordLength closes rest + 1 := by
  by_cases hc : c = '\\'
  · subst hc
    exact wordLength_backslash (hbackslash rfl)
  · exact wordLength_plain hc hends

end WordLength

theorem unescape_ne_nil {text : List Char} (h : text ≠ []) : unescape text ≠ [] := by
  fun_cases unescape text with
  | case1 => exact absurd rfl h
  | _ => exact List.cons_ne_nil _ _

theorem unescape_escaped {c : Char} {rest : List Char} (hc : isEscapable c) :
    unescape ('\\' :: c :: rest) = c :: unescape rest := by
  rw [unescape, if_pos (by simp [hc])]

theorem unescape_cons {c : Char} {rest : List Char}
    (hrest : c = '\\' → ∀ d ∈ rest.head?, isEscapable d = false) :
    unescape (c :: rest) = c :: unescape rest := by
  cases rest with
  | nil => rfl
  | cons d tail =>
      rw [unescape, if_neg]
      intro hescape
      obtain ⟨hc, hd⟩ : c = '\\' ∧ isEscapable d := by simpa using hescape
      rw [hrest hc d rfl] at hd
      cases hd

/-- A character at the beginning of a word that escapes nothing. -/
theorem unescape_cons_of_append {c : Char} {tail rest : List Char}
    (hrest : c = '\\' → ∀ d ∈ (tail ++ rest).head?, isEscapable d = false) :
    unescape (c :: tail) = c :: unescape tail := by
  apply unescape_cons
  intro hc d hd
  obtain ⟨after, rfl⟩ := List.head?_eq_some_iff.mp hd
  exact hrest hc d rfl

/-- A word is read character by character, an escape being read at once. What holds of
the empty word and is kept by both holds of every word. -/
theorem word_induction {closes : Bool} {rest : List Char} {motive : List Char → Prop}
    (empty : motive [])
    (escaped : ∀ c tail, isEscapable c → motive tail → motive ('\\' :: c :: tail))
    (plain : ∀ c tail, endsWord closes c (tail ++ rest) = false →
      (c = '\\' → ∀ d ∈ (tail ++ rest).head?, isEscapable d = false) →
      motive tail → motive (c :: tail))
    {word : List Char} (h : wordLength closes (word ++ rest) = word.length) : motive word := by
  induction hlength : word.length using Nat.strong_induction_on generalizing word with
  | _ length ih =>
      cases word with
      | nil => exact empty
      | cons c tail =>
          rw [List.cons_append] at h
          rw [List.length_cons] at h hlength
          by_cases hescape : c = '\\' ∧ ∃ d ∈ (tail ++ rest).head?, isEscapable d
          · obtain ⟨rfl, d, hd, hescapable⟩ := hescape
            obtain ⟨after, hafter⟩ := List.head?_eq_some_iff.mp hd
            rw [hafter, wordLength_escaped hescapable] at h
            cases tail with
            | nil => simp at h
            | cons e tail =>
                obtain ⟨rfl, rfl⟩ := List.cons.inj hafter
                rw [List.length_cons] at h hlength
                have htail : wordLength closes (tail ++ rest) = tail.length := by simpa using h
                exact escaped _ tail hescapable (ih tail.length (by omega) htail rfl)
          · have hbackslash : c = '\\' → ∀ d ∈ (tail ++ rest).head?, isEscapable d = false :=
              fun hc d hd => Bool.eq_false_iff.mpr fun hd' => hescape ⟨hc, d, hd, hd'⟩
            have hends : endsWord closes c (tail ++ rest) = false := by
              rw [Bool.eq_false_iff, ne_eq, ← wordLength_eq_zero_iff, h]
              exact Nat.succ_ne_zero _
            rw [wordLength_cons hends hbackslash] at h
            have htail : wordLength closes (tail ++ rest) = tail.length := Nat.succ.inj h
            exact plain c tail hends hbackslash (ih tail.length (by omega) htail rfl)

/-- A word never runs over a blank. -/
theorem isBlank_of_mem_word {closes : Bool} {word rest : List Char}
    (h : wordLength closes (word ++ rest) = word.length) : ∀ c ∈ word, isBlank c = false := by
  refine word_induction (motive := fun word => ∀ c ∈ word, isBlank c = false) ?_ ?_ ?_ h
  · exact nofun
  · intro c tail hescapable htail
    simp only [isEscapable, Bool.or_eq_true, beq_iff_eq] at hescapable
    have hc : isBlank c = false := by rcases hescapable with rfl | rfl <;> decide
    exact List.forall_mem_cons.mpr ⟨by decide, List.forall_mem_cons.mpr ⟨hc, htail⟩⟩
  · intro c tail hends _ htail
    simp only [endsWord, Bool.or_eq_false_iff] at hends
    exact List.forall_mem_cons.mpr ⟨hends.1.1.1, htail⟩

end Text

namespace BareValue

theorem unsignedLength_le (text : List Char) : unsignedLength text ≤ text.length := by
  have hdigits : leadingDigits text ≤ text.length := (List.takeWhile_prefix _).length_le
  unfold unsignedLength
  split
  next rest hdrop =>
    have hrest : leadingDigits rest ≤ rest.length := (List.takeWhile_prefix _).length_le
    have hlength := congrArg List.length hdrop
    rw [List.length_drop, List.length_cons] at hlength
    omega
  next => exact hdigits

section Unsigned

variable {whole rest : List Char}

theorem unsignedLength_whole (hwhole : ∀ c ∈ whole, c.isDigit)
    (hrest : Stops Char.isDigit rest) (hpoint : rest.head? ≠ some '.') :
    unsignedLength (whole ++ rest) = whole.length := by
  rw [unsignedLength, leadingDigits_append hwhole hrest, List.drop_left]
  split
  next => exact absurd rfl hpoint
  next => rfl

theorem unsignedLength_fraction {fraction : List Char} (hwhole : ∀ c ∈ whole, c.isDigit)
    (hfraction : ∀ c ∈ fraction, c.isDigit) (hrest : Stops Char.isDigit rest) :
    unsignedLength (whole ++ '.' :: (fraction ++ rest)) = (whole ++ '.' :: fraction).length := by
  rw [unsignedLength, leadingDigits_append hwhole (stops_cons.mpr (by decide)), List.drop_left]
  change whole.length + 1 + leadingDigits (fraction ++ rest) = _
  rw [leadingDigits_append hfraction hrest, List.length_append, List.length_cons]
  omega

/-- The parts of digits with at most one point among them, and what stops them. -/
theorem unsigned_cases {source : List Char}
    (h : unsignedLength (source ++ rest) = source.length) :
    ((∀ c ∈ source, c.isDigit) ∧ Stops Char.isDigit rest ∧ rest.head? ≠ some '.') ∨
      ∃ whole fraction, source = whole ++ '.' :: fraction ∧ (∀ c ∈ whole, c.isDigit) ∧
        (∀ c ∈ fraction, c.isDigit) ∧ Stops Char.isDigit rest := by
  obtain ⟨whole, after, htext, hwhole, hafter⟩ := exists_maximalRun Char.isDigit (source ++ rest)
  by_cases hpoint : after.head? = some '.'
  · obtain ⟨fractional, rfl⟩ := List.head?_eq_some_iff.mp hpoint
    obtain ⟨fraction, behind, rfl, hfraction, hbehind⟩ :=
      exists_maximalRun Char.isDigit fractional
    rw [htext, unsignedLength_fraction hwhole hfraction hbehind] at h
    rw [← List.cons_append, ← List.append_assoc] at htext
    obtain ⟨rfl, rfl⟩ := List.append_inj htext h.symm
    exact .inr ⟨whole, fraction, rfl, hwhole, hfraction, hbehind⟩
  · rw [htext, unsignedLength_whole hwhole hafter hpoint] at h
    obtain ⟨rfl, rfl⟩ := List.append_inj htext h.symm
    exact .inl ⟨hwhole, hafter, hpoint⟩

end Unsigned

theorem spelled_le (word text : List Char) : spelled word text ≤ text.length := by
  induction word generalizing text with
  | nil => simp [spelled]
  | cons expected word ih =>
      cases text with
      | nil => simp [spelled]
      | cons c rest =>
          rw [spelled]
          split
          next => exact Nat.succ_le_succ (ih rest)
          next => exact Nat.zero_le _

theorem map_toLower_isPrefix_of_spelled {word source rest : List Char}
    (h : spelled word (source ++ rest) = source.length) : source.map Char.toLower <+: word := by
  induction source generalizing word with
  | nil => exact List.nil_prefix
  | cons c source ih =>
      cases word with
      | nil => cases h
      | cons expected word =>
          rw [List.cons_append, spelled] at h
          split at h
          next heq =>
            rw [List.map_cons, eq_of_beq heq]
            exact List.cons_prefix_cons.mpr ⟨rfl, ih (Nat.succ.inj h)⟩
          next => cases h

theorem extent_le (value : BareValue) (text : List Char) : value.extent text ≤ text.length := by
  unfold extent
  split
  · exact Nat.succ_le_succ (unsignedLength_le _)
  · exact unsignedLength_le _
  · exact spelled_le _ _

theorem extent_number_of_head?_ne {text : List Char} (h : text.head? ≠ some '-') :
    extent .number text = unsignedLength text := by
  unfold extent
  split
  next => exact absurd rfl h
  next => rfl
  next => contradiction

/-- A number has a sign, or what is measured of it begins without one. -/
theorem extent_number_cases {source rest : List Char}
    (h : extent .number (source ++ rest) = source.length) :
    ((source ++ rest).head? ≠ some '-' ∧ unsignedLength (source ++ rest) = source.length) ∨
      ∃ digits, source = '-' :: digits ∧ unsignedLength (digits ++ rest) = digits.length := by
  by_cases hminus : (source ++ rest).head? = some '-'
  · cases source with
    | nil =>
        obtain ⟨after, rfl⟩ := List.head?_eq_some_iff.mp hminus
        cases h
    | cons c digits =>
        obtain rfl : c = '-' := Option.some.inj hminus
        exact .inr ⟨digits, rfl, Nat.succ.inj h⟩
  · rw [extent_number_of_head?_ne hminus] at h
    exact .inl ⟨hminus, h⟩

end BareValue

end Markup

end TemplateLexer
