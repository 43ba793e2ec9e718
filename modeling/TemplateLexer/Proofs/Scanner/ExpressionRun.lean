import TemplateLexer.Proofs.ExpressionRules
import TemplateLexer.Proofs.Scanner.Expression
import TemplateLexer.Proofs.Scanner.Logic

/-! # Scanned expressions

An expression is scanned without a fault, and the tokens that a scanner writes are
those of the expression.
-/

namespace TemplateLexer

namespace Expression

theorem stringTail_le (quote : Char) (text : List Char) : stringTail quote text ≤ text.length := by
  fun_induction stringTail quote text with
  | case1 => exact Nat.le_refl _
  | case2 c rest ih => simpa using ih
  | case3 c rest => exact Nat.succ_le_succ (Nat.zero_le _)
  | case4 c rest _ _ ih => exact Nat.succ_le_succ ih

theorem lexemes_blanks {blanks : List Char} (hblanks : ∀ c ∈ blanks, isBlank c)
    (rest : List Char) :
    lexemes (blanks ++ rest) = blanks.map Lexeme.blank ++ lexemes rest := by
  induction blanks with
  | nil => rfl
  | cons c tail ih =>
      have hc : classify c ([] ++ (tail ++ rest)) = (if c == '\t' then .tab else .whitespace, 0) :=
        if_pos (hblanks c List.mem_cons_self)
      have hlexemes := lexemes_cons_append hc
      rw [List.nil_append, ih fun d hd => hblanks d (List.mem_cons_of_mem _ hd)] at hlexemes
      exact hlexemes

end Expression

namespace Scanner.Expression

open Scan

variable {input unread rest : List Char} {pending : Span.Pending} {nesting : Quote.Nesting}
  {stream : TokenStream}

theorem runs_writeFrom (first : List Char) (h : first ++ rest <:+ input) (kind : Token.Kind) :
    Runs (writeFrom (input.length - (first ++ rest).length) kind)
      (facing input rest pending nesting stream) (.ok ())
      (facing input rest pending nesting (stream.append [{ kind, source := first }])) :=
  .bind runs_position (.bind (runs_slice h) (runs_write _))

theorem runs_stringTail_nil (quote : Char) :
    Runs (stringTail quote) (facing input [] pending nesting stream) (.ok ())
      (facing input [] pending nesting stream) := by
  exact .loop_done (.bind runs_next?_nil (.pure _))

/-- A backslash at the end of a text protects nothing. -/
theorem runs_stringTail_backslash (quote : Char) (h : ['\\'] <:+ input) :
    Runs (stringTail quote) (facing input ['\\'] pending nesting stream) (.ok ())
      (facing input [] pending nesting stream) := by
  refine .loop_again (.bind (runs_next? h) ?_) (runs_stringTail_nil quote)
  exact .bind runs_next?_nil.discard (.pure _)

/-- Any other character may be the quote that ends the string. -/
theorem runs_stringStep {quote c : Char} {progress : Progress Unit Unit} (hc : c ≠ '\\')
    (h : c :: rest <:+ input)
    (hprogress : (if c == quote then .done () else .again ()) = progress) :
    Runs (stringStep quote) (facing input (c :: rest) pending nesting stream) (.ok progress)
      (facing input rest pending nesting stream) := by
  subst hprogress
  refine .bind (runs_next? h) ?_
  dsimp only
  rw [if_neg (by simpa using hc)]
  split
  next => exact .pure _
  next => exact .pure _

/-- The tail of a string ends where the string does. -/
theorem runs_stringTail (quote : Char) (h : unread <:+ input) :
    Runs (stringTail quote) (facing input unread pending nesting stream) (.ok ())
      (facing input (unread.drop (TemplateLexer.Expression.stringTail quote unread)) pending nesting
        stream) := by
  -- A backslash that protects nothing is the last character, whichever case it falls into.
  have hlast : ∀ rest : List Char,
      (∀ d more, '\\' = '\\' → rest = d :: more → False) → rest = [] := by
    intro rest hprotects
    cases rest with
    | nil => rfl
    | cons d more => exact (hprotects d more rfl rfl).elim
  fun_induction TemplateLexer.Expression.stringTail quote unread with
  | case1 => exact runs_stringTail_nil quote
  | case2 c rest ih =>
      have hc : c :: rest <:+ input := (List.suffix_cons _ _).trans h
      refine .loop_again (.bind (runs_next? h) ?_) (ih ((List.suffix_cons _ _).trans hc))
      exact .bind (runs_next? hc).discard (.pure _)
  | case3 c rest hprotects hquote =>
      by_cases hbackslash : c = '\\'
      · subst hbackslash
        obtain rfl := hlast rest hprotects
        exact runs_stringTail_backslash quote h
      · exact .loop_done (runs_stringStep hbackslash h (if_pos hquote))
  | case4 c rest hprotects hquote ih =>
      by_cases hbackslash : c = '\\'
      · subst hbackslash
        obtain rfl := hlast rest hprotects
        exact runs_stringTail_backslash quote h
      · exact .loop_again (runs_stringStep hbackslash h (if_neg hquote))
          (ih ((List.suffix_cons _ _).trans h))

section Numbers

variable {digits : List Char}

theorem runs_numberTail_digit {c : Char} (hc : c.isDigit) (h : c :: rest <:+ input)
    {hadPoint result : Bool} {last : Scanner}
    (htail : Runs (numberTail hadPoint) (facing input rest pending nesting stream) (.ok result)
      last) :
    Runs (numberTail hadPoint) (facing input (c :: rest) pending nesting stream) (.ok result)
      last := by
  refine .loop_again (.bind (runs_peek? h) ?_) htail
  dsimp only [List.head?_cons]
  rw [if_pos hc]
  exact .bind (runs_next? h).discard (.pure _)

/-- The digits of a number are read one by one. -/
theorem runs_numberTail_digits (hdigits : ∀ c ∈ digits, c.isDigit) (h : digits ++ rest <:+ input)
    {hadPoint result : Bool} {last : Scanner}
    (htail : Runs (numberTail hadPoint) (facing input rest pending nesting stream) (.ok result)
      last) :
    Runs (numberTail hadPoint) (facing input (digits ++ rest) pending nesting stream) (.ok result)
      last := by
  induction digits with
  | nil => exact htail
  | cons c tail ih =>
      have htext : tail ++ rest <:+ input := (List.suffix_cons _ _).trans h
      exact runs_numberTail_digit (hdigits c List.mem_cons_self) h
        (ih (fun d hd => hdigits d (List.mem_cons_of_mem _ hd)) htext)

theorem runs_numberTail_point (h : '.' :: rest <:+ input) {result : Bool} {last : Scanner}
    (htail : Runs (numberTail true) (facing input rest pending nesting stream) (.ok result) last) :
    Runs (numberTail false) (facing input ('.' :: rest) pending nesting stream) (.ok result)
      last := by
  refine .loop_again (.bind (runs_peek? h) ?_) htail
  exact .bind (runs_next? h).discard (.pure _)

/-- A number ends at a character that is neither a digit nor a point. -/
theorem runs_numberTail_end (h : rest <:+ input) (hrest : Stops Char.isDigit rest)
    (hpoint : rest.head? ≠ some '.') (hadPoint : Bool) :
    Runs (numberTail hadPoint) (facing input rest pending nesting stream) (.ok false)
      (facing input rest pending nesting stream) := by
  refine .loop_done (.bind (runs_peek? h) ?_)
  cases rest with
  | nil => exact .pure _
  | cons c tail =>
      have hdigit : c.isDigit = false := stops_cons.mp hrest
      have hc : (c == '.') = false := by simpa using hpoint
      simp only [List.head?_cons, hdigit, hc, Bool.false_and, Bool.false_eq_true, if_false]
      exact .pure _

/-- A number with a point ends at the next character that is no digit. It matters only
if this is a point as well, and then what stands before it. -/
theorem runs_numberTail_hadPoint {prior : Char} (h : prior :: rest <:+ input)
    (hrest : Stops Char.isDigit rest) :
    Runs (numberTail true) (facing input rest pending nesting stream)
      (.ok (rest.head? == some '.' && prior == '.'))
      (facing input rest pending nesting stream) := by
  have hunread : rest <:+ input := (List.suffix_cons _ _).trans h
  by_cases hpoint : rest.head? = some '.'
  · obtain ⟨tail, rfl⟩ := List.head?_eq_some_iff.mp hpoint
    refine .loop_done (.bind (runs_peek? hunread) ?_)
    exact .bind (runs_previousPosition h) (.bind (runs_characterAt h) (.pure _))
  · have hresult : (rest.head? == some '.') = false := beq_eq_false_iff_ne.mpr hpoint
    rw [hresult]
    exact runs_numberTail_end hunread hrest hpoint true

/-- So a number with a point is half of a range if it ends in its point and another one
follows. -/
theorem runs_numberTail_fraction {prior : Char} (hdigits : ∀ c ∈ digits, c.isDigit)
    (h : prior :: (digits ++ rest) <:+ input) (hrest : Stops Char.isDigit rest) :
    Runs (numberTail true) (facing input (digits ++ rest) pending nesting stream)
      (.ok (digits.isEmpty && rest.head? == some '.' && prior == '.'))
      (facing input rest pending nesting stream) := by
  apply runs_numberTail_digits hdigits ((List.suffix_cons _ _).trans h)
  rcases List.eq_nil_or_concat' digits with rfl | ⟨before, d, rfl⟩
  · exact runs_numberTail_hadPoint h hrest
  · have hd : d.isDigit := hdigits d (by simp)
    have hpoint : (d == '.') = false := by
      apply beq_eq_false_iff_ne.mpr
      rintro rfl
      exact absurd hd (by decide)
    have hprior : d :: rest <:+ input := by
      refine List.IsSuffix.trans ⟨prior :: before, ?_⟩ h
      simp
    have hruns : Runs (numberTail true) (facing input rest pending nesting stream) _ _ :=
      runs_numberTail_hadPoint hprior hrest
    have hnonempty : (before ++ [d]).isEmpty = false := by simp
    rw [hnonempty, Bool.false_and, Bool.false_and]
    rwa [hpoint, Bool.and_false] at hruns

end Numbers

/-- A program that reads the lexemes at the beginning of an expression, up to a point
from which the rest is an expression of its own. -/
def ReadsToken (program : Scan Unit) (input unread : List Char) : Prop :=
  ∀ pending nesting stream, ∃ lexemes rest,
    Expression.lexemes unread = lexemes ++ Expression.lexemes rest ∧
      rest <:+ unread ∧ rest.length < unread.length ∧
      Runs program (facing input unread pending nesting stream) (.ok ())
        (facing input rest pending nesting (stream.append lexemes))

theorem ReadsToken.bind {α : Type} {program : Scan α} {next : α → Scan Unit} {a : α}
    (hprogram : ∀ pending nesting stream,
      Runs program (facing input unread pending nesting stream) (.ok a)
        (facing input unread pending nesting stream))
    (hnext : ReadsToken (next a) input unread) : ReadsToken (program >>= next) input unread :=
  fun pending nesting stream =>
    let ⟨lexemes, rest, hlexemes, hsuffix, hlength, hruns⟩ := hnext pending nesting stream
    ⟨lexemes, rest, hlexemes, hsuffix, hlength, .bind (hprogram pending nesting stream) hruns⟩

/-- A token of one lexeme whose kind and extent are those of the expression. -/
theorem readsToken_of_classify {program : Scan Unit} {c : Char} {tail rest : List Char}
    {kind : Token.Kind}
    (hclassify : Expression.classify c (tail ++ rest) = (kind, tail.length))
    (hruns : ∀ pending nesting stream,
      Runs program (facing input (c :: (tail ++ rest)) pending nesting stream) (.ok ())
        (facing input rest pending nesting (stream.append [{ kind, source := c :: tail }]))) :
    ReadsToken program input (c :: (tail ++ rest)) := fun pending nesting stream =>
  ⟨_, rest, Expression.lexemes_cons_append hclassify, List.suffix_append (c :: tail) rest,
    by simp only [List.length_cons, List.length_append]; omega, hruns pending nesting stream⟩

section Tokens

variable {c : Char}

theorem readsToken_string (h : c :: rest <:+ input) (hblank : isBlank c = false)
    (hquote : (Quote.ofChar? c).isSome) : ReadsToken (string c) input (c :: rest) := by
  have hclassify : Expression.classify c rest = _ :=
    Expression.classify_string hblank hquote
  have hrest : rest <:+ input := (List.suffix_cons _ _).trans h
  have hlength := Expression.stringTail_le c rest
  have htail := fun pending nesting stream =>
    @runs_stringTail input rest pending nesting stream c hrest
  generalize TemplateLexer.Expression.stringTail c rest = length at hclassify hlength htail
  obtain ⟨tail, after, rfl, rfl⟩ : ∃ tail after, rest = tail ++ after ∧ tail.length = length :=
    ⟨rest.take length, rest.drop length, (List.take_append_drop _ _).symm,
      List.length_take_of_le hlength⟩
  apply readsToken_of_classify hclassify
  intro pending nesting stream
  refine .bind runs_position (.bind (runs_next? h).discard ?_)
  refine .bind (htail pending nesting stream) ?_
  rw [List.drop_left]
  exact runs_writeFrom (c :: tail) h .string

/-- A scanner sees the same keyword as an expression does. -/
theorem startsWith_facing (h : unread <:+ input) :
    (facing input unread pending nesting stream).reader.startsWith = (·.isPrefixOf unread) := by
  funext literal
  rw [Reader.startsWith, unread_facing h]

theorem runs_tryKeyword_none (h : unread <:+ input)
    (hkeyword : Expression.keywords.find? (·.isPrefixOf unread) = none) :
    Runs tryKeyword (facing input unread pending nesting stream) (.ok false)
      (facing input unread pending nesting stream) := by
  rw [← startsWith_facing h] at hkeyword
  refine .bind (runs_look rfl) ?_
  rw [hkeyword]
  exact .pure _

/-- Keywords are short enough to count over. -/
theorem keywords_all_small :
    Expression.keywords.all fun keyword => 2 * keyword.length < UInt64.size := by decide

theorem runs_tryKeyword_some {keyword : List Char} (h : keyword ++ rest <:+ input)
    (hkeyword : Expression.keywords.find? (·.isPrefixOf (keyword ++ rest)) =
      some keyword) :
    Runs tryKeyword (facing input (keyword ++ rest) pending nesting stream) (.ok true)
      (facing input rest pending nesting
        (stream.append [{ kind := .literal, source := keyword }])) := by
  have hshort := List.all_eq_true.mp keywords_all_small keyword (List.mem_of_find?_eq_some hkeyword)
  rw [← startsWith_facing h] at hkeyword
  refine .bind (runs_look rfl) ?_
  rw [hkeyword]
  exact .bind (runs_skip h (decide_eq_true_eq.mp hshort)) (.bind (runs_write _) (.pure _))

theorem readsToken_identifier (h : c :: rest <:+ input) (hblank : isBlank c = false)
    (hquote : (Quote.ofChar? c).isSome = false)
    (hkeyword : Expression.keywords.find? (·.isPrefixOf (c :: rest)) = none)
    (halpha : c.isAlpha) : ReadsToken identifier input (c :: rest) := by
  have hclassify := Expression.classify_identifier hblank hquote hkeyword halpha
  obtain ⟨tail, after, rfl, htail, hafter⟩ :=
    exists_maximalRun Expression.isIdentifierChar rest
  rw [takeWhile_append_of_stops htail hafter] at hclassify
  have hrest : tail ++ after <:+ input := (List.suffix_cons _ _).trans h
  apply readsToken_of_classify hclassify
  intro pending nesting stream
  refine .bind runs_position (.bind (runs_next? h).discard ?_)
  refine .bind (runs_skipWhile hrest htail hafter) ?_
  exact runs_writeFrom (c :: tail) h .identifier

/-- A number that is no half of a range is written as it was read. -/
theorem readsToken_number_of_tail {tail after : List Char} (h : c :: (tail ++ after) <:+ input)
    (hclassify : Expression.classify c (tail ++ after) = (.number, tail.length))
    (htail : ∀ pending nesting stream,
      Runs (numberTail (some c == some '.')) (facing input (tail ++ after) pending nesting stream)
        (.ok false) (facing input after pending nesting stream)) :
    ReadsToken number input (c :: (tail ++ after)) := by
  apply readsToken_of_classify hclassify
  intro pending nesting stream
  refine .bind runs_position (.bind (runs_next? h) (.bind (htail _ _ _) ?_))
  exact runs_writeFrom (c :: tail) h .number

/-- A number before two points ends there, and the points are read with it. -/
theorem readsToken_number_of_range {digits after : List Char}
    (h : c :: (digits ++ '.' :: '.' :: after) <:+ input) (hpoint : c ≠ '.')
    (hdigits : ∀ d ∈ digits, d.isDigit)
    (hclassify : Expression.classify c (digits ++ '.' :: '.' :: after) =
      (.number, digits.length)) :
    ReadsToken number input (c :: (digits ++ '.' :: '.' :: after)) := by
  intro pending nesting stream
  have hwhole : digits ++ '.' :: '.' :: after <:+ input := (List.suffix_cons _ _).trans h
  have hpoints : '.' :: '.' :: after <:+ input := (List.suffix_append _ _).trans hwhole
  have hsecond : '.' :: after <:+ input := (List.suffix_cons _ _).trans hpoints
  have hfirst : (some c == some '.') = false := by simpa using hpoint
  -- The first point is taken for the number's own until the second one is seen.
  have htail : Runs (numberTail true) (facing input ('.' :: after) pending nesting stream) _ _ :=
    runs_numberTail_hadPoint hpoints (stops_cons.mpr (by decide))
  refine ⟨[{ kind := .number, source := c :: digits }] ++
    [{ kind := .operator, source := ['.', '.'] }], after, ?_, ?_, ?_, ?_⟩
  · rw [Expression.lexemes_cons_append hclassify,
      Expression.lexemes_range]
    rfl
  · exact List.suffix_append (c :: digits ++ ['.', '.']) after |>.trans (by simp)
  · simp only [List.length_cons, List.length_append]
    omega
  · refine .bind runs_position (.bind (runs_next? h) ?_)
    rw [hfirst]
    refine .bind (runs_numberTail_digits hdigits hwhole (runs_numberTail_point hpoints htail)) ?_
    refine .bind (runs_previousPosition hpoints) ?_
    refine .bind (@runs_slice _ _ _ _ _ _ (c :: digits) h) ?_
    rw [TokenStream.append_append]
    exact .bind (runs_write _) (.bind (runs_next? hsecond).discard (runs_write _))

/-- A number that begins with its point has no other point. -/
theorem readsToken_number_of_point {digits after : List Char}
    (h : '.' :: (digits ++ after) <:+ input) (hdigits : ∀ d ∈ digits, d.isDigit)
    (hafter : Stops Char.isDigit after)
    (hnumber : TemplateLexer.Expression.startsNumber '.' (digits ++ after))
    (hclassify : Expression.classify '.' (digits ++ after) = (.number, digits.length)) :
    ReadsToken number input ('.' :: (digits ++ after)) := by
  -- A point begins a number only before a digit, so it cannot be half of a range.
  have hnonempty : digits.isEmpty = false := by
    cases digits with
    | nil =>
        cases after with
        | nil => cases hnumber
        | cons d more =>
            have hd : d.isDigit = false := stops_cons.mp hafter
            simp [TemplateLexer.Expression.startsNumber, hd] at hnumber
    | cons d more => rfl
  apply readsToken_number_of_tail h hclassify
  intro pending nesting stream
  have htail : Runs (numberTail true)
      (facing input (digits ++ after) pending nesting stream) _ _ :=
    runs_numberTail_fraction hdigits h hafter
  rwa [hnonempty] at htail

/-- A point behind digits belongs to the number unless it is half of a range. -/
theorem readsToken_number_of_fraction {digits more : List Char}
    (h : c :: (digits ++ '.' :: more) <:+ input) (hpoint : c ≠ '.')
    (hdigits : ∀ d ∈ digits, d.isDigit) (hrange : more.head? ≠ some '.')
    (hclassify : Expression.classify c (digits ++ '.' :: more) =
      (.number, digits.length + (leadingDigits more + 1))) :
    ReadsToken number input (c :: (digits ++ '.' :: more)) := by
  obtain ⟨places, after, rfl, hplaces, hafter⟩ := exists_maximalRun Char.isDigit more
  rw [leadingDigits_append hplaces hafter] at hclassify
  have hwhole : digits ++ '.' :: (places ++ after) <:+ input := (List.suffix_cons _ _).trans h
  have hunread : '.' :: (places ++ after) <:+ input := (List.suffix_append _ _).trans hwhole
  have hfirst : (some c == some '.') = false := by simpa using hpoint
  have htext : digits ++ '.' :: (places ++ after) = (digits ++ '.' :: places) ++ after := by simp
  have hlength : digits.length + (places.length + 1) = (digits ++ '.' :: places).length := by simp
  rw [hlength, htext] at hclassify
  rw [htext] at h ⊢
  apply readsToken_number_of_tail h hclassify
  intro pending nesting stream
  rw [hfirst, ← htext]
  apply runs_numberTail_digits hdigits hwhole
  apply runs_numberTail_point hunread
  have htail : Runs (numberTail true)
      (facing input (places ++ after) pending nesting stream) _ _ :=
    runs_numberTail_fraction hplaces hunread hafter
  have hresult : (places.isEmpty && after.head? == some '.' && '.' == '.') = false := by
    cases places <;> simp_all
  rwa [hresult] at htail

theorem readsToken_number (h : c :: rest <:+ input) (hblank : isBlank c = false)
    (hquote : (Quote.ofChar? c).isSome = false)
    (hkeyword : Expression.keywords.find? (·.isPrefixOf (c :: rest)) = none)
    (halpha : c.isAlpha = false) (hnumber : TemplateLexer.Expression.startsNumber c rest) :
    ReadsToken number input (c :: rest) := by
  have hclassify := Expression.classify_number hblank hquote hkeyword halpha hnumber
  obtain ⟨digits, after, rfl, hdigits, hafter⟩ := exists_maximalRun Char.isDigit rest
  rw [TemplateLexer.Expression.numberTail, leadingDigits_append hdigits hafter] at hclassify
  by_cases hpoint : c = '.'
  · subst hpoint
    exact readsToken_number_of_point h hdigits hafter hnumber hclassify
  · rw [if_neg (by simpa using hpoint), List.drop_left] at hclassify
    by_cases hdot : after.head? = some '.'
    · obtain ⟨more, rfl⟩ := List.head?_eq_some_iff.mp hdot
      by_cases hrange : more.head? = some '.'
      · obtain ⟨behind, rfl⟩ := List.head?_eq_some_iff.mp hrange
        exact readsToken_number_of_range h hpoint hdigits hclassify
      · rw [Expression.fraction_point hrange] at hclassify
        exact readsToken_number_of_fraction h hpoint hdigits hrange hclassify
    · have hfirst : (some c == some '.') = false := by simpa using hpoint
      have hwhole : digits ++ after <:+ input := (List.suffix_cons _ _).trans h
      have hunread : after <:+ input := (List.suffix_append _ _).trans hwhole
      rw [Expression.fraction_of_ne hdot, Nat.add_zero] at hclassify
      apply readsToken_number_of_tail h hclassify
      intro pending nesting stream
      rw [hfirst]
      exact runs_numberTail_digits hdigits hwhole (runs_numberTail_end hunread hafter hdot false)

theorem runs_startsNumber (h : c :: rest <:+ input) :
    Runs startsNumber (facing input (c :: rest) pending nesting stream)
      (.ok (TemplateLexer.Expression.startsNumber c rest))
      (facing input (c :: rest) pending nesting stream) := by
  rw [TemplateLexer.Expression.startsNumber]
  refine .bind (runs_peek? h) ?_
  dsimp only [List.head?_cons]
  split
  next hdigit =>
    rw [hdigit]
    exact .pure _
  next hdigit =>
    rw [Bool.not_eq_true] at hdigit
    rw [hdigit, Bool.false_or]
    split
    next hsign =>
      have hnext : (c :: rest)[1]? = rest.head? := List.head?_eq_getElem?.symm
      rw [hsign, Bool.true_and, ← hnext]
      exact .bind (runs_peekAt? h (by decide)) (.pure _)
    next hsign =>
      rw [Bool.not_eq_true] at hsign
      rw [hsign, Bool.false_and]
      exact .pure _

theorem readsToken_operatorOrPunctuation (h : c :: rest <:+ input) (hblank : isBlank c = false)
    (hquote : (Quote.ofChar? c).isSome = false)
    (hkeyword : Expression.keywords.find? (·.isPrefixOf (c :: rest)) = none)
    (halpha : c.isAlpha = false)
    (hnumber : TemplateLexer.Expression.startsNumber c rest = false) :
    ReadsToken (operatorOrPunctuation c) input (c :: rest) := by
  have hnext : (c :: rest)[1]? = rest.head? := List.head?_eq_getElem?.symm
  by_cases hpair : rest.head?.any (Expression.isOperatorPair c)
  · obtain ⟨d, hd, _⟩ := (Option.any_eq_true _ _).mp hpair
    obtain ⟨after, rfl⟩ := List.head?_eq_some_iff.mp hd
    have hclassify : Expression.classify c ([d] ++ after) = (.operator, [d].length) :=
      Expression.classify_pair hblank hquote hkeyword halpha hnumber hpair
    apply readsToken_of_classify hclassify
    intro pending nesting stream
    refine .bind runs_position (.bind (runs_peekAt? h (by decide)) ?_)
    rw [hnext, if_pos hpair]
    have hshort : 2 * [c, d].length < UInt64.size := (by decide : 2 * 2 < UInt64.size)
    exact .bind (@runs_skip _ _ _ _ _ [c, d] h hshort) (runs_writeFrom [c, d] h .operator)
  · rw [Bool.not_eq_true] at hpair
    have hclassify : Expression.classify c ([] ++ rest) = (kindOf c, 0) :=
      Expression.classify_single hblank hquote hkeyword halpha hnumber hpair
    apply readsToken_of_classify hclassify
    intro pending nesting stream
    refine .bind runs_position (.bind (runs_peekAt? h (by decide)) ?_)
    rw [List.nil_append, hnext, if_neg (by rw [hpair]; exact Bool.false_ne_true)]
    exact .bind (runs_next? h).discard (runs_writeFrom [c] h _)

/-- A keyword is a literal, whatever follows it. -/
theorem readsToken_keyword {keyword : List Char} {next : Bool → Scan Unit}
    (h : c :: rest <:+ input) (hblank : isBlank c = false)
    (hquote : (Quote.ofChar? c).isSome = false)
    (hkeyword : Expression.keywords.find? (·.isPrefixOf (c :: rest)) = some keyword)
    (hnext : next true = pure ()) : ReadsToken (tryKeyword >>= next) input (c :: rest) := by
  have hclassify := Expression.classify_keyword hblank hquote hkeyword
  have hmem := List.mem_of_find?_eq_some hkeyword
  have hbegins := List.find?_some hkeyword
  obtain ⟨after, htext⟩ := List.isPrefixOf_iff_prefix.mp hbegins
  cases keyword with
  | nil => exact absurd hmem (by decide)
  | cons d tail =>
      obtain ⟨rfl, rfl⟩ := List.cons.inj htext
      apply readsToken_of_classify hclassify
      intro pending nesting stream
      refine .bind (@runs_tryKeyword_some _ after _ _ _ (d :: tail) h hkeyword) ?_
      rw [hnext]
      exact .pure ()

/-- Every character that is no blank begins a token that the scanner can read. -/
theorem readsToken_token (h : c :: rest <:+ input) (hblank : isBlank c = false) :
    ReadsToken (token c) input (c :: rest) := by
  unfold token
  by_cases hquote : (Quote.ofChar? c).isSome
  · rw [if_pos hquote]
    exact readsToken_string h hblank hquote
  · rw [if_neg hquote]
    rw [Bool.not_eq_true] at hquote
    cases hkeyword : Expression.keywords.find? (·.isPrefixOf (c :: rest)) with
    | some keyword => exact readsToken_keyword h hblank hquote hkeyword rfl
    | none =>
        refine .bind (fun _ _ _ => runs_tryKeyword_none h hkeyword) ?_
        by_cases halpha : c.isAlpha
        · rw [if_neg Bool.false_ne_true, if_pos halpha]
          exact readsToken_identifier h hblank hquote hkeyword halpha
        · rw [if_neg Bool.false_ne_true, if_neg halpha]
          rw [Bool.not_eq_true] at halpha
          refine .bind (fun _ _ _ => runs_startsNumber h) ?_
          split
          next hnumber => exact readsToken_number h hblank hquote hkeyword halpha hnumber
          next hnumber =>
            exact readsToken_operatorOrPunctuation h hblank hquote hkeyword halpha
              (Bool.not_eq_true _ ▸ hnumber)

end Tokens

/-- Before the end of an expression, its blanks are read first. -/
theorem runs_runStep {blanks text : List Char} (h : blanks ++ text <:+ input)
    (hne : blanks ++ text ≠ []) (hblanks : ∀ c ∈ blanks, isBlank c) (htext : Stops isBlank text)
    {progress : Progress Unit Unit} {last : Scanner}
    (htoken : Runs
      (match text.head? with
      | none => return .done ()
      | some c => do
        token c
        return .again ())
      (facing input text pending nesting (stream.append (blanks.map Lexeme.blank)))
      (.ok progress) last) :
    Runs runStep (facing input (blanks ++ text) pending nesting stream) (.ok progress) last := by
  have hunread : text <:+ input := (List.suffix_append _ _).trans h
  refine .bind (runs_atEnd h) ?_
  rw [if_neg (by simpa using hne)]
  refine .bind (runs_takeBlanks h hblanks htext) (.bind (runs_emit _) ?_)
  exact .bind (runs_peek? hunread) htoken

/-- Before the end of an expression, each step reads something, and the last one reads it to its
end. -/
theorem exists_runs_runStep (h : unread <:+ input) (hne : unread ≠ []) :
    ∃ progress lexemes rest, Expression.lexemes unread = lexemes ++ Expression.lexemes rest ∧
      rest <:+ unread ∧ rest.length < unread.length ∧ (progress = .done () → rest = []) ∧
      Runs runStep (facing input unread pending nesting stream) (.ok progress)
        (facing input rest pending nesting (stream.append lexemes)) := by
  obtain ⟨blanks, text, rfl, hblanks, htext⟩ := exists_maximalRun isBlank unread
  have hunread : text <:+ input := (List.suffix_append _ _).trans h
  cases text with
  | nil =>
      refine ⟨.done (), blanks.map Lexeme.blank, [], Expression.lexemes_blanks hblanks [],
        List.nil_suffix, List.length_pos_iff.mpr hne, fun _ => rfl, ?_⟩
      exact runs_runStep h hne hblanks htext (.pure _)
  | cons c tail =>
      obtain ⟨lexemes, rest, hlexemes, hsuffix, hshorter, htoken⟩ :=
        readsToken_token hunread (stops_cons.mp htext) pending nesting
          (stream.append (blanks.map Lexeme.blank))
      refine ⟨.again (), blanks.map Lexeme.blank ++ lexemes, rest, ?_, ?_, ?_, ?_, ?_⟩
      · rw [Expression.lexemes_blanks hblanks, hlexemes, List.append_assoc]
      · exact hsuffix.trans (List.suffix_append _ _)
      · rw [List.length_append]
        exact Nat.lt_of_lt_of_le hshorter (Nat.le_add_left _ _)
      · intro hdone
        cases hdone
      · rw [TokenStream.append_append]
        exact runs_runStep h hne hblanks htext (.bind htoken (.pure _))

/-- A whole expression is read, and its tokens are written. -/
theorem runs_run (h : unread <:+ input) :
    Runs run (facing input unread pending nesting stream) (.ok ())
      (facing input [] pending nesting
        (stream.append (Expression.lexemes unread))) := by
  induction hlength : unread.length using Nat.strong_induction_on
    generalizing unread stream with
  | _ length ih =>
      subst hlength
      by_cases hempty : unread = []
      · subst hempty
        rw [Expression.lexemes, TokenStream.append_nil]
        exact .loop_done (.bind (runs_atEnd h) (.pure _))
      · obtain ⟨progress, lexemes, rest, hlexemes, hsuffix, hshorter, hend, hstep⟩ :=
          @exists_runs_runStep _ _ pending nesting stream h hempty
        rw [hlexemes, TokenStream.append_append]
        cases progress with
        | done result =>
            obtain rfl := hend rfl
            rw [Expression.lexemes, TokenStream.append_nil]
            exact .loop_done hstep
        | again state => exact .loop_again hstep (ih rest.length hshorter (hsuffix.trans h) rfl)

/-- An expression that is read on its own leaves any scanner where it is. -/
theorem runs_embed_of_scanner (source : List Char) (scanner : Scanner) :
    Runs (embed source) scanner (.ok ())
      { scanner with stream := scanner.stream.append (Expression.lexemes source) } := by
  have hrun : Runs run (facing source source {} {} scanner.stream) _ _ :=
    runs_run (List.suffix_refl _)
  have hfirst : facing source source {} {} scanner.stream =
      { reader := { text := source }, stream := scanner.stream } := by
    rw [facing, Nat.sub_self]
  rw [hfirst] at hrun
  have hembed : embed source scanner =
      run { reader := { text := source }, stream := scanner.stream } >>= fun outcome =>
        some (outcome.1, { scanner with stream := outcome.2.stream }) := rfl
  rw [Runs, hembed, hrun]
  rfl

theorem runs_embed (source : List Char) :
    Runs (embed source) (facing input unread pending nesting stream) (.ok ())
      (facing input unread pending nesting
        (stream.append (Expression.lexemes source))) :=
  runs_embed_of_scanner source _

end Scanner.Expression

end TemplateLexer
