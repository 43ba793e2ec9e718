import TemplateLexer.Expression
import TemplateLexer.Proofs.Character
import TemplateLexer.Proofs.Extent

/-! # Rules of expressions

The ways to read the next lexeme of an expression. Every rule writes the text as the
characters that it reads and what follows them, with the conditions under which it
reads exactly these. The lexer follows the rules, and they decide what it reads.
-/

namespace TemplateLexer.Expression

/-- A number may have a sign. -/
def signs : List (List Char) := [[], ['-']]

/-- What follows the opening quote of a string and does not end it. A backslash protects the one
character after it. -/
inductive Inside (quote : Char) : List Char → Prop where
  | nil : Inside quote []
  | escaped {c : Char} {rest : List Char} (hrest : Inside quote rest) :
      Inside quote ('\\' :: c :: rest)
  | plain {c : Char} {rest : List Char} (hquote : c ≠ quote) (hbackslash : c ≠ '\\')
      (hrest : Inside quote rest) : Inside quote (c :: rest)

/-- What follows the opening quote of a string that the text does not end. A backslash at the end of
the text protects nothing. -/
def Unclosed (quote : Char) (text : List Char) : Prop :=
  ∃ inside, Inside quote inside ∧ (text = inside ∨ text = inside ++ ['\\'])

/-- A character that begins neither a blank, nor a string, nor a word. -/
structure IsSign (c : Char) : Prop where
  blank : isBlank c = false
  quote : (Quote.ofChar? c).isSome = false
  letter : c.isAlpha = false

/-- A character that neither begins a number nor makes an operator with the one after it. -/
structure StandsAlone (c : Char) (rest : List Char) : Prop where
  number : startsNumber c rest = false
  pair : rest.head?.any (isOperatorPair c) = false

/-- A lexeme of this kind is read from `source` if `rest` follows. -/
inductive Rule : Token.Kind → List Char → List Char → Prop where
  | tab {rest : List Char} : Rule .tab ['\t'] rest
  | blank {c : Char} {rest : List Char} (hc : isBlank c) (htab : c ≠ '\t') :
      Rule .whitespace [c] rest
  | string {quote : Char} {inside rest : List Char} (hquote : (Quote.ofChar? quote).isSome)
      (hinside : Inside quote inside) : Rule .string (quote :: (inside ++ [quote])) rest
  | unclosedString {quote : Char} {text : List Char} (hquote : (Quote.ofChar? quote).isSome)
      (htext : Unclosed quote text) : Rule .string (quote :: text) []
  /-- A keyword is read whatever follows, even as the beginning of a longer word. -/
  | keyword {keyword rest : List Char} (hkeyword : keyword ∈ keywords) : Rule .literal keyword rest
  | identifier {c : Char} {run rest : List Char} (hc : c.isAlpha)
      (hkeyword : ∀ keyword ∈ keywords, ¬ keyword <+: c :: (run ++ rest))
      (hrun : ∀ d ∈ run, isIdentifierChar d) (hrest : Stops isIdentifierChar rest) :
      Rule .identifier (c :: run) rest
  /-- A point behind the digits belongs to the number, unless it is half of a range. -/
  | integer {sign whole rest : List Char} (hsign : sign ∈ signs) (hne : whole ≠ [])
      (hwhole : ∀ d ∈ whole, d.isDigit) (hrest : Stops Char.isDigit rest)
      (hrange : rest.head? = some '.' → ['.', '.'] <+: rest) : Rule .number (sign ++ whole) rest
  | decimal {sign whole fraction rest : List Char} (hsign : sign ∈ signs) (hne : whole ≠ [])
      (hwhole : ∀ d ∈ whole, d.isDigit) (hfraction : ∀ d ∈ fraction, d.isDigit)
      (hrest : Stops Char.isDigit rest) (hrange : fraction = [] → rest.head? ≠ some '.') :
      Rule .number (sign ++ (whole ++ '.' :: fraction)) rest
  | fraction {fraction rest : List Char} (hne : fraction ≠ [])
      (hfraction : ∀ d ∈ fraction, d.isDigit) (hrest : Stops Char.isDigit rest) :
      Rule .number ('.' :: fraction) rest
  | pair {first second : Char} {rest : List Char} (hpair : isOperatorPair first second) :
      Rule .operator [first, second] rest
  | operator {c : Char} {rest : List Char} (hc : c ∈ operators) (halone : StandsAlone c rest) :
      Rule .operator [c] rest
  | punctuation {c : Char} {rest : List Char} (hc : c ∈ punctuation)
      (halone : StandsAlone c rest) : Rule .punctuation [c] rest
  | plain {c : Char} {rest : List Char} (hc : IsSign c) (hoperator : c ∉ operators)
      (hpunctuation : c ∉ punctuation) (halone : StandsAlone c rest) : Rule .plain [c] rest

section Extents

/-- A lexeme and what follows it, when its extent is known. -/
theorem lexemes_cons_append {c : Char} {tail rest : List Char} {kind : Token.Kind}
    (h : classify c (tail ++ rest) = (kind, tail.length)) :
    lexemes (c :: (tail ++ rest)) = { kind, source := c :: tail } :: lexemes rest := by
  rw [lexemes, h]
  dsimp only
  rw [List.take_left, List.drop_left]

theorem fraction_point {rest : List Char} (h : rest.head? ≠ some '.') :
    fraction ('.' :: rest) = leadingDigits rest + 1 := by
  unfold fraction
  split
  next heq => exact absurd (by rw [(List.cons.inj heq).2]; rfl) h
  next heq => rw [(List.cons.inj heq).2]
  next hpoint => exact (hpoint rest rfl).elim

theorem fraction_of_ne {text : List Char} (h : text.head? ≠ some '.') : fraction text = 0 := by
  unfold fraction
  split
  next => rfl
  next => exact absurd rfl h
  next => rfl

/-- A text has no fraction at its beginning unless it begins with a decimal point. -/
theorem fraction_eq_zero {text : List Char} (h : text.head? = some '.' → ['.', '.'] <+: text) :
    fraction text = 0 := by
  by_cases hpoint : text.head? = some '.'
  · obtain ⟨rest, rfl⟩ := h hpoint
    rfl
  · exact fraction_of_ne hpoint

/-- The point of a fraction is followed by its digits, or by no other point. -/
theorem fraction_append {digits rest : List Char} (hdigits : ∀ d ∈ digits, d.isDigit)
    (hrest : Stops Char.isDigit rest) (hrange : digits = [] → rest.head? ≠ some '.') :
    fraction ('.' :: (digits ++ rest)) = ('.' :: digits).length := by
  rw [fraction_point, leadingDigits_append hdigits hrest, List.length_cons]
  cases digits with
  | nil => exact hrange rfl
  | cons d digits =>
      rintro hhead
      obtain rfl : d = '.' := Option.some.inj hhead
      exact absurd (hdigits '.' List.mem_cons_self) (by decide)

/-- A text begins with a decimal point and the digits after it, or with none. -/
theorem fraction_cases (text : List Char) :
    ((text.head? = some '.' → ['.', '.'] <+: text) ∧ fraction text = 0) ∨
      ∃ digits rest, text = '.' :: (digits ++ rest) ∧ (∀ d ∈ digits, d.isDigit) ∧
        Stops Char.isDigit rest ∧ (digits = [] → rest.head? ≠ some '.') ∧
        fraction text = ('.' :: digits).length := by
  by_cases hpoint : text.head? = some '.'
  · obtain ⟨more, rfl⟩ := List.head?_eq_some_iff.mp hpoint
    by_cases hrange : more.head? = some '.'
    · obtain ⟨rest, rfl⟩ := List.head?_eq_some_iff.mp hrange
      exact .inl ⟨fun _ => ⟨rest, rfl⟩, rfl⟩
    · obtain ⟨digits, rest, rfl, hdigits, hrest⟩ := exists_maximalRun Char.isDigit more
      have hpoint : digits = [] → rest.head? ≠ some '.' := by
        rintro rfl
        exact hrange
      exact .inr ⟨digits, rest, rfl, hdigits, hrest, hpoint, fraction_append hdigits hrest hpoint⟩
  · exact .inl ⟨fun hhead => absurd hhead hpoint, fraction_of_ne hpoint⟩

/-- The digits and the fraction of a number that does not begin with its point. -/
theorem numberTail_append {c : Char} {digits rest : List Char} (hc : c ≠ '.')
    (hdigits : ∀ d ∈ digits, d.isDigit) (hrest : Stops Char.isDigit rest) :
    numberTail c (digits ++ rest) = digits.length + fraction rest := by
  rw [numberTail, if_neg (by simpa using hc), leadingDigits_append hdigits hrest, List.drop_left]

theorem numberTail_point {digits rest : List Char} (hdigits : ∀ d ∈ digits, d.isDigit)
    (hrest : Stops Char.isDigit rest) : numberTail '.' (digits ++ rest) = digits.length :=
  leadingDigits_append hdigits hrest

/-- Two points are one operator. -/
theorem lexemes_range (rest : List Char) :
    lexemes ('.' :: '.' :: rest) =
      { kind := .operator, source := ['.', '.'] } :: lexemes rest := by
  have hclassify : classify '.' (['.'] ++ rest) = (.operator, ['.'].length) := rfl
  exact lexemes_cons_append hclassify

section Quotes

variable {c : Char}

theorem eq_of_ofChar?_isSome (h : (Quote.ofChar? c).isSome) : c = '\'' ∨ c = '"' := by
  unfold Quote.ofChar? at h
  split at h
  next hsingle => exact .inl (eq_of_beq hsingle)
  next =>
    split at h
    next hdouble => exact .inr (eq_of_beq hdouble)
    next => cases h

theorem ofChar?_isSome_iff : (Quote.ofChar? c).isSome ↔ c = '\'' ∨ c = '"' := by
  refine ⟨eq_of_ofChar?_isSome, ?_⟩
  rintro (rfl | rfl) <;> rfl

theorem ne_backslash_of_ofChar? (h : (Quote.ofChar? c).isSome) : c ≠ '\\' := by
  rcases eq_of_ofChar?_isSome h with rfl | rfl <;> decide

theorem isBlank_eq_false_of_ofChar? (h : (Quote.ofChar? c).isSome) : isBlank c = false := by
  rcases eq_of_ofChar?_isSome h with rfl | rfl <;> decide

end Quotes

section Strings

variable {quote : Char} {inside rest : List Char}

theorem stringTail_plain {c : Char} (hquote : c ≠ quote) (hbackslash : c ≠ '\\') :
    stringTail quote (c :: rest) = stringTail quote rest + 1 := by
  rw [stringTail, if_neg (by simpa using hquote)]
  exact fun _ _ heq _ => hbackslash heq

theorem stringTail_quote (hquote : quote ≠ '\\') : stringTail quote (quote :: rest) = 1 := by
  rw [stringTail, if_pos (beq_self_eq_true quote)]
  exact fun _ _ heq _ => hquote heq

/-- A string goes on with what follows the characters inside of it. -/
theorem Inside.stringTail_append (h : Inside quote inside) :
    stringTail quote (inside ++ rest) = inside.length + stringTail quote rest := by
  induction h with
  | nil => exact (Nat.zero_add _).symm
  | escaped _ ih =>
      rw [List.cons_append, List.cons_append, stringTail, ih]
      simp only [List.length_cons]
      omega
  | plain hquote hbackslash _ ih =>
      rw [List.cons_append, stringTail_plain hquote hbackslash, ih, List.length_cons]
      omega

theorem Inside.stringTail_closed (h : Inside quote inside) (hquote : quote ≠ '\\') :
    stringTail quote (inside ++ quote :: rest) = (inside ++ [quote]).length := by
  rw [h.stringTail_append, stringTail_quote hquote, List.length_append]
  rfl

theorem Unclosed.stringTail_eq {text : List Char} (h : Unclosed quote text) :
    stringTail quote text = text.length := by
  obtain ⟨inside, hinside, rfl | rfl⟩ := h
  · have htail : stringTail quote (text ++ []) = _ := hinside.stringTail_append
    rwa [List.append_nil, stringTail, Nat.add_zero] at htail
  · have hlast : stringTail quote ['\\'] = 1 := by
      rw [stringTail]
      · split <;> rfl
      · exact fun _ _ _ heq => nomatch heq
    rw [hinside.stringTail_append, hlast, List.length_append]
    rfl

theorem Unclosed.escaped {c : Char} {text : List Char} (h : Unclosed quote text) :
    Unclosed quote ('\\' :: c :: text) := by
  obtain ⟨inside, hinside, htext⟩ := h
  exact ⟨'\\' :: c :: inside, .escaped hinside, by rcases htext with rfl | rfl <;> simp⟩

theorem Unclosed.plain {c : Char} {text : List Char} (h : Unclosed quote text)
    (hquote : c ≠ quote) (hbackslash : c ≠ '\\') : Unclosed quote (c :: text) := by
  obtain ⟨inside, hinside, htext⟩ := h
  exact ⟨c :: inside, .plain hquote hbackslash hinside, by rcases htext with rfl | rfl <;> simp⟩

/-- A string is ended by its quote, or not at all. -/
theorem stringTail_cases (hquote : quote ≠ '\\') (text : List Char) :
    (∃ inside rest, text = inside ++ quote :: rest ∧ Inside quote inside ∧
        stringTail quote text = (inside ++ [quote]).length) ∨
      (Unclosed quote text ∧ stringTail quote text = text.length) := by
  suffices h : (∃ inside rest, text = inside ++ quote :: rest ∧ Inside quote inside) ∨
      Unclosed quote text by
    rcases h with ⟨inside, rest, rfl, hinside⟩ | hunclosed
    · exact .inl ⟨inside, rest, rfl, hinside, hinside.stringTail_closed hquote⟩
    · exact .inr ⟨hunclosed, hunclosed.stringTail_eq⟩
  fun_induction stringTail quote text with
  | case1 => exact .inr ⟨[], .nil, .inl rfl⟩
  | case2 c text ih =>
      rcases ih with ⟨inside, rest, rfl, hinside⟩ | hunclosed
      · exact .inl ⟨'\\' :: c :: inside, rest, rfl, .escaped hinside⟩
      · exact .inr hunclosed.escaped
  | case3 c text _ hc => exact .inl ⟨[], text, by rw [eq_of_beq hc]; rfl, .nil⟩
  | case4 c text hprotects hc ih =>
      by_cases hbackslash : c = '\\'
      · -- A backslash that protects nothing is the last character.
        subst hbackslash
        cases text with
        | nil => exact .inr ⟨[], .nil, .inr rfl⟩
        | cons d more => exact (hprotects d more rfl rfl).elim
      · have hne : c ≠ quote := by simpa using hc
        rcases ih with ⟨inside, rest, rfl, hinside⟩ | hunclosed
        · exact .inl ⟨c :: inside, rest, rfl, .plain hne hbackslash hinside⟩
        · exact .inr (hunclosed.plain hne hbackslash)

end Strings

end Extents

section Classify

variable {c : Char} {rest : List Char}

theorem classify_blank (hblank : isBlank c) :
    classify c rest = (if c == '\t' then .tab else .whitespace, 0) := if_pos hblank

theorem classify_string (hblank : isBlank c = false) (hquote : (Quote.ofChar? c).isSome) :
    classify c rest = (.string, stringTail c rest) := by
  simp [classify, hblank, hquote]

theorem classify_keyword {keyword : List Char} (hblank : isBlank c = false)
    (hquote : (Quote.ofChar? c).isSome = false)
    (hkeyword : keywords.find? (·.isPrefixOf (c :: rest)) = some keyword) :
    classify c rest = (.literal, keyword.length - 1) := by
  simp [classify, hblank, hquote, hkeyword]

theorem classify_identifier (hblank : isBlank c = false) (hquote : (Quote.ofChar? c).isSome = false)
    (hkeyword : keywords.find? (·.isPrefixOf (c :: rest)) = none) (halpha : c.isAlpha) :
    classify c rest = (.identifier, (rest.takeWhile isIdentifierChar).length) := by
  simp [classify, hblank, hquote, hkeyword, halpha]

theorem classify_number (hblank : isBlank c = false) (hquote : (Quote.ofChar? c).isSome = false)
    (hkeyword : keywords.find? (·.isPrefixOf (c :: rest)) = none) (halpha : c.isAlpha = false)
    (hnumber : startsNumber c rest) :
    classify c rest = (.number, numberTail c rest) := by
  simp [classify, hblank, hquote, hkeyword, halpha, hnumber]

theorem classify_pair (hblank : isBlank c = false) (hquote : (Quote.ofChar? c).isSome = false)
    (hkeyword : keywords.find? (·.isPrefixOf (c :: rest)) = none) (halpha : c.isAlpha = false)
    (hnumber : startsNumber c rest = false) (hpair : rest.head?.any (isOperatorPair c)) :
    classify c rest = (.operator, 1) := by
  simp [classify, hblank, hquote, hkeyword, halpha, hnumber, hpair]

theorem classify_single (hblank : isBlank c = false) (hquote : (Quote.ofChar? c).isSome = false)
    (hkeyword : keywords.find? (·.isPrefixOf (c :: rest)) = none) (halpha : c.isAlpha = false)
    (hnumber : startsNumber c rest = false) (hpair : rest.head?.any (isOperatorPair c) = false) :
    classify c rest = (if operators.contains c then .operator
      else if punctuation.contains c then .punctuation else .plain, 0) := by
  by_cases hoperator : c ∈ operators
  · simp [classify, hblank, hquote, hkeyword, halpha, hnumber, hpair, hoperator]
  · by_cases hpunctuation : c ∈ punctuation <;>
      simp [classify, hblank, hquote, hkeyword, halpha, hnumber, hpair, hoperator, hpunctuation]

end Classify

section Keywords

theorem find?_keywords_eq_none {text : List Char}
    (h : ∀ keyword ∈ keywords, ¬ keyword <+: text) :
    keywords.find? (·.isPrefixOf text) = none := by
  rw [List.find?_eq_none]
  intro keyword hkeyword hbegins
  exact h keyword hkeyword (List.isPrefixOf_iff_prefix.mp hbegins)

/-- No two keywords begin alike. -/
theorem find?_keywords_append {keyword : List Char} (h : keyword ∈ keywords) (rest : List Char) :
    keywords.find? (·.isPrefixOf (keyword ++ rest)) = some keyword := by
  simp only [keywords, List.mem_cons, List.not_mem_nil, or_false] at h
  rcases h with rfl | rfl | rfl <;> rfl

theorem exists_cons_of_mem_keywords {keyword : List Char} (h : keyword ∈ keywords) :
    ∃ c tail, keyword = c :: tail ∧ c.isAlpha := by
  simp only [keywords, List.mem_cons, List.not_mem_nil, or_false] at h
  rcases h with rfl | rfl | rfl <;> exact ⟨_, _, rfl, by decide⟩

end Keywords

section Signs

variable {c : Char} {rest : List Char}

theorem isSign_of_isDigit (hc : c.isDigit) : IsSign c where
  blank := isBlank_eq_false_of_isNameChar (isNameChar_of_isDigit hc)
  quote := ofChar?_isSome_eq_false_of_isNameChar (isNameChar_of_isDigit hc)
  letter := isAlpha_eq_false_of_isDigit hc

theorem isSign_of_mem (hc : c ∈ operators ++ punctuation ++ doubledOperators ++ ['~']) :
    IsSign c := by
  have hall : (operators ++ punctuation ++ doubledOperators ++ ['~']).all fun c =>
      !isBlank c && !(Quote.ofChar? c).isSome && !c.isAlpha := by decide
  have hsign := List.all_eq_true.mp hall c hc
  simp only [Bool.and_eq_true, Bool.not_eq_true'] at hsign
  exact ⟨hsign.1.1, hsign.1.2, hsign.2⟩

theorem IsSign.keyword (hc : IsSign c) (rest : List Char) :
    keywords.find? (·.isPrefixOf (c :: rest)) = none := by
  apply find?_keywords_eq_none
  intro keyword hkeyword hbegins
  obtain ⟨d, tail, rfl, hd⟩ := exists_cons_of_mem_keywords hkeyword
  obtain ⟨rfl, _⟩ := List.cons_prefix_cons.mp hbegins
  rw [hc.letter] at hd
  cases hd

end Signs

section Soundness

variable {c : Char} {text : List Char}

/-- What is read from the beginning of a text, and by which rule. -/
def Reads (c : Char) (text : List Char) : Prop :=
  ∃ kind tail rest, text = tail ++ rest ∧ classify c text = (kind, tail.length) ∧
    Rule kind (c :: tail) rest

theorem reads_blank (hblank : isBlank c) : Reads c text := by
  refine ⟨_, [], text, rfl, classify_blank hblank, ?_⟩
  by_cases htab : c = '\t'
  · subst htab
    exact .tab
  · rw [if_neg (by simpa using htab)]
    exact .blank hblank htab

theorem reads_string (hblank : isBlank c = false) (hquote : (Quote.ofChar? c).isSome) :
    Reads c text := by
  have hclassify : classify c text = (.string, stringTail c text) := classify_string hblank hquote
  rcases stringTail_cases (ne_backslash_of_ofChar? hquote) text with
    ⟨inside, rest, rfl, hinside, hlength⟩ | ⟨hunclosed, hlength⟩
  · rw [hlength] at hclassify
    exact ⟨_, inside ++ [c], rest, by simp, hclassify, .string hquote hinside⟩
  · rw [hlength] at hclassify
    exact ⟨_, text, [], by simp, hclassify, .unclosedString hquote hunclosed⟩

theorem reads_keyword {keyword : List Char} (hblank : isBlank c = false)
    (hquote : (Quote.ofChar? c).isSome = false)
    (hkeyword : keywords.find? (·.isPrefixOf (c :: text)) = some keyword) : Reads c text := by
  have hclassify := classify_keyword hblank hquote hkeyword
  have hmem := List.mem_of_find?_eq_some hkeyword
  have hbegins := List.find?_some hkeyword
  obtain ⟨rest, htext⟩ := List.isPrefixOf_iff_prefix.mp hbegins
  obtain ⟨d, tail, rfl, _⟩ := exists_cons_of_mem_keywords hmem
  obtain ⟨rfl, rfl⟩ := List.cons.inj htext
  exact ⟨_, tail, rest, rfl, hclassify, .keyword hmem⟩

theorem reads_identifier (hblank : isBlank c = false) (hquote : (Quote.ofChar? c).isSome = false)
    (hkeyword : keywords.find? (·.isPrefixOf (c :: text)) = none) (halpha : c.isAlpha) :
    Reads c text := by
  have hclassify := classify_identifier hblank hquote hkeyword halpha
  obtain ⟨run, rest, rfl, hrun, hrest⟩ := exists_maximalRun isIdentifierChar text
  rw [takeWhile_append_of_stops hrun hrest] at hclassify
  have hnone : ∀ keyword ∈ keywords, ¬ keyword <+: c :: (run ++ rest) := by
    intro keyword hmem hbegins
    exact List.find?_eq_none.mp hkeyword keyword hmem (List.isPrefixOf_iff_prefix.mpr hbegins)
  exact ⟨_, run, rest, rfl, hclassify, .identifier halpha hnone hrun hrest⟩

/-- Behind the digits of a number comes its fraction, if it has one. -/
theorem exists_numberRule {sign whole after : List Char} (hsign : sign ∈ signs) (hne : whole ≠ [])
    (hwhole : ∀ d ∈ whole, d.isDigit) (hafter : Stops Char.isDigit after) :
    ∃ tail rest, after = tail ++ rest ∧ fraction after = tail.length ∧
      Rule .number (sign ++ (whole ++ tail)) rest := by
  rcases fraction_cases after with ⟨hrange, hfraction⟩ |
    ⟨digits, rest, rfl, hdigits, hrest, hrange, hfraction⟩
  · refine ⟨[], after, rfl, hfraction, ?_⟩
    rw [List.append_nil]
    exact .integer hsign hne hwhole hafter hrange
  · exact ⟨'.' :: digits, rest, rfl, hfraction, .decimal hsign hne hwhole hdigits hrest hrange⟩

theorem reads_number (hc : IsSign c) (hnumber : startsNumber c text) : Reads c text := by
  have hclassify := classify_number hc.blank hc.quote (hc.keyword text) hc.letter hnumber
  obtain ⟨digits, after, rfl, hdigits, hafter⟩ := exists_maximalRun Char.isDigit text
  by_cases hdigit : c.isDigit
  · have hpoint : c ≠ '.' := by
      rintro rfl
      exact absurd hdigit (by decide)
    have hsign : [] ∈ signs := List.mem_cons_self
    obtain ⟨tail, rest, rfl, hfraction, hrule⟩ := exists_numberRule hsign (List.cons_ne_nil c digits)
      (List.forall_mem_cons.mpr ⟨hdigit, hdigits⟩) hafter
    rw [numberTail_append hpoint hdigits hafter, hfraction, ← List.length_append] at hclassify
    exact ⟨_, digits ++ tail, rest, (List.append_assoc _ _ _).symm, hclassify, hrule⟩
  · -- A sign or a point begins a number only before a digit.
    obtain ⟨hsigned, hhead⟩ : (c = '-' ∨ c = '.') ∧ (digits ++ after).head?.any Char.isDigit := by
      simpa [startsNumber, hdigit] using hnumber
    have hne : digits ≠ [] := by
      rintro rfl
      obtain ⟨d, hd, hisDigit⟩ := (Option.any_eq_true _ _).mp hhead
      rw [hafter d hd] at hisDigit
      cases hisDigit
    rcases hsigned with rfl | rfl
    · have hsign : ['-'] ∈ signs := List.mem_cons_of_mem _ List.mem_cons_self
      obtain ⟨tail, rest, rfl, hfraction, hrule⟩ := exists_numberRule hsign hne hdigits hafter
      rw [numberTail_append (by decide) hdigits hafter, hfraction, ← List.length_append]
        at hclassify
      exact ⟨_, digits ++ tail, rest, (List.append_assoc _ _ _).symm, hclassify, hrule⟩
    · rw [numberTail_point hdigits hafter] at hclassify
      exact ⟨_, digits, after, rfl, hclassify, .fraction hne hdigits hafter⟩

theorem reads_pair (hc : IsSign c) (hnumber : startsNumber c text = false)
    (hpair : text.head?.any (isOperatorPair c)) : Reads c text := by
  have hclassify := classify_pair hc.blank hc.quote (hc.keyword text) hc.letter hnumber hpair
  obtain ⟨d, hd, hoperator⟩ := (Option.any_eq_true _ _).mp hpair
  obtain ⟨rest, rfl⟩ := List.head?_eq_some_iff.mp hd
  exact ⟨_, [d], rest, rfl, hclassify, .pair hoperator⟩

theorem reads_single (hc : IsSign c) (halone : StandsAlone c text) : Reads c text := by
  refine ⟨_, [], text, rfl,
    classify_single hc.blank hc.quote (hc.keyword text) hc.letter halone.number halone.pair, ?_⟩
  split
  next hoperator => exact .operator (by simpa using hoperator) halone
  next hoperator =>
    split
    next hpunctuation => exact .punctuation (by simpa using hpunctuation) halone
    next hpunctuation =>
      exact .plain hc (by simpa using hoperator) (by simpa using hpunctuation) halone

/-- Some rule reads the lexeme at the beginning of every expression. -/
theorem reads (c : Char) (text : List Char) : Reads c text := by
  by_cases hblank : isBlank c
  · exact reads_blank hblank
  rw [Bool.not_eq_true] at hblank
  by_cases hquote : (Quote.ofChar? c).isSome
  · exact reads_string hblank hquote
  rw [Bool.not_eq_true] at hquote
  cases hkeyword : keywords.find? (·.isPrefixOf (c :: text)) with
  | some keyword => exact reads_keyword hblank hquote hkeyword
  | none =>
      by_cases halpha : c.isAlpha
      · exact reads_identifier hblank hquote hkeyword halpha
      rw [Bool.not_eq_true] at halpha
      have hc : IsSign c := ⟨hblank, hquote, halpha⟩
      by_cases hnumber : startsNumber c text
      · exact reads_number hc hnumber
      rw [Bool.not_eq_true] at hnumber
      by_cases hpair : text.head?.any (isOperatorPair c)
      · exact reads_pair hc hnumber hpair
      · exact reads_single hc ⟨hnumber, by simpa using hpair⟩

/-- An expression that is not empty is read by a rule, and then goes on as an expression of its
own. -/
theorem exists_rule {text : List Char} (hne : text ≠ []) :
    ∃ kind source rest, text = source ++ rest ∧ Rule kind source rest ∧
      lexemes text = { kind, source } :: lexemes rest := by
  obtain ⟨c, text, rfl⟩ := List.exists_cons_of_ne_nil hne
  obtain ⟨kind, tail, rest, rfl, hclassify, hrule⟩ := reads c text
  exact ⟨kind, c :: tail, rest, rfl, hrule, lexemes_cons_append hclassify⟩

theorem Rule.ne_nil {kind : Token.Kind} {source rest : List Char} (h : Rule kind source rest) :
    source ≠ [] := by
  cases h with
  | keyword hkeyword =>
      obtain ⟨c, tail, rfl, _⟩ := exists_cons_of_mem_keywords hkeyword
      exact List.cons_ne_nil c tail
  | integer _ hne => exact List.append_ne_nil_of_right_ne_nil _ hne
  | decimal _ hne =>
      exact List.append_ne_nil_of_right_ne_nil _ (List.append_ne_nil_of_left_ne_nil hne _)
  | _ => exact List.cons_ne_nil _ _

/-- The principle of induction over expressions. -/
theorem lexemes_induction {motive : List Char → List Lexeme → Prop} (nil : motive [] [])
    (rule : ∀ {kind source rest}, Rule kind source rest → motive rest (lexemes rest) →
      motive (source ++ rest) ({ kind, source } :: lexemes rest)) (text : List Char) :
    motive text (lexemes text) := by
  induction hlength : text.length using Nat.strong_induction_on generalizing text with
  | _ length ih =>
      by_cases hne : text = []
      · subst hne
        rw [lexemes]
        exact nil
      · obtain ⟨kind, source, rest, rfl, hrule, hlexemes⟩ := exists_rule hne
        have hless : rest.length < length := by
          have hpos := List.length_pos_iff.mpr hrule.ne_nil
          rw [← hlength, List.length_append]
          omega
        rw [hlexemes]
        exact rule hrule (ih rest.length hless rest rfl)

end Soundness

section Completeness

variable {kind : Token.Kind} {c : Char} {source rest : List Char}

theorem lexemes_of_number {tail : List Char} (hc : IsSign c) (hnumber : startsNumber c (tail ++ rest))
    (htail : numberTail c (tail ++ rest) = tail.length) :
    lexemes (c :: (tail ++ rest)) = { kind := .number, source := c :: tail } :: lexemes rest := by
  have hclassify := classify_number hc.blank hc.quote (hc.keyword _) hc.letter hnumber
  rw [htail] at hclassify
  exact lexemes_cons_append hclassify

/-- A number is read up to the end of its fraction, with or without a sign. -/
theorem lexemes_of_wholeNumber {sign whole tail : List Char} (hsign : sign ∈ signs)
    (hne : whole ≠ []) (hwhole : ∀ d ∈ whole, d.isDigit) (hstops : Stops Char.isDigit (tail ++ rest))
    (htail : fraction (tail ++ rest) = tail.length) :
    lexemes (sign ++ (whole ++ tail) ++ rest) =
      { kind := .number, source := sign ++ (whole ++ tail) } :: lexemes rest := by
  obtain ⟨d, digits, rfl⟩ := List.exists_cons_of_ne_nil hne
  obtain ⟨hd, hdigits⟩ := List.forall_mem_cons.mp hwhole
  simp only [signs, List.mem_cons, List.not_mem_nil, or_false] at hsign
  rcases hsign with rfl | rfl
  · have hpoint : d ≠ '.' := by
      rintro rfl
      exact absurd hd (by decide)
    have hlength : numberTail d ((digits ++ tail) ++ rest) = (digits ++ tail).length := by
      rw [List.append_assoc, numberTail_append hpoint hdigits hstops, htail, List.length_append]
    exact lexemes_of_number (isSign_of_isDigit hd) (by simp [startsNumber, hd]) hlength
  · have hlength :
        numberTail '-' ((d :: digits ++ tail) ++ rest) = (d :: digits ++ tail).length := by
      rw [List.append_assoc, numberTail_append (by decide) hwhole hstops, htail,
        List.length_append]
    exact lexemes_of_number (isSign_of_mem (by decide)) (by simp [startsNumber, hd]) hlength

theorem lexemes_singleton (h : classify c rest = (kind, 0)) :
    lexemes (c :: rest) = { kind, source := [c] } :: lexemes rest := by
  have hclassify : classify c ([] ++ rest) = (kind, ([] : List Char).length) := h
  exact lexemes_cons_append hclassify

theorem lexemes_of_standsAlone (hc : IsSign c) (halone : StandsAlone c rest)
    (hkind : (if operators.contains c then .operator
      else if punctuation.contains c then .punctuation else .plain) = kind) :
    lexemes (c :: rest) = { kind, source := [c] } :: lexemes rest := by
  apply lexemes_singleton
  rw [classify_single hc.blank hc.quote (hc.keyword rest) hc.letter halone.number halone.pair,
    hkind]

/-- Two characters that make an operator begin no number, even if the first is a point. -/
theorem lexemes_of_pair {first second : Char} (hpair : isOperatorPair first second) :
    lexemes (first :: second :: rest) =
      { kind := .operator, source := [first, second] } :: lexemes rest := by
  have hfirst : first ∈ doubledOperators ++ comparisons ++ ['~'] := by
    simp only [isOperatorPair, Bool.or_eq_true, Bool.and_eq_true, List.contains_iff_mem,
      beq_iff_eq] at hpair
    simp only [List.mem_append, List.mem_singleton]
    exact hpair.imp (Or.imp And.left And.left) And.left
  have hall : (doubledOperators ++ comparisons ++ ['~']).all fun c =>
      (operators ++ punctuation ++ doubledOperators ++ ['~']).contains c && !c.isDigit &&
        c != '-' := by decide
  obtain ⟨⟨hmem, hdigit⟩, hminus⟩ :
      (first ∈ operators ++ punctuation ++ doubledOperators ++ ['~'] ∧ first.isDigit = false) ∧
        first ≠ '-' := by
    simpa only [Bool.and_eq_true, List.contains_iff_mem, Bool.not_eq_true', bne_iff_ne] using
      List.all_eq_true.mp hall first hfirst
  have hsign : IsSign first := isSign_of_mem hmem
  have hpoint : first = '.' → second.isDigit = false := by
    rintro rfl
    have hsecond : second = '.' := by
      simpa [isOperatorPair, doubledOperators, comparisons] using hpair
    rw [hsecond]
    rfl
  have hnumber : startsNumber first (second :: rest) = false := by
    simpa [startsNumber, hdigit, hminus] using hpoint
  have hclassify : classify first ([second] ++ rest) = (.operator, [second].length) :=
    classify_pair hsign.blank hsign.quote (hsign.keyword _) hsign.letter hnumber hpair
  exact lexemes_cons_append hclassify

/-- A rule reads its lexeme whatever text it is applied to. -/
theorem Rule.lexemes_eq (h : Rule kind source rest) :
    lexemes (source ++ rest) = { kind, source } :: lexemes rest := by
  cases h with
  | tab => exact lexemes_singleton (classify_blank (by decide))
  | blank hc htab =>
      apply lexemes_singleton
      rw [classify_blank hc, if_neg (by simpa using htab)]
  | @string quote inside _ hquote hinside =>
      have hclassify :
          classify quote (inside ++ [quote] ++ rest) = (.string, (inside ++ [quote]).length) := by
        rw [classify_string (isBlank_eq_false_of_ofChar? hquote) hquote, List.append_assoc]
        exact congrArg _ (hinside.stringTail_closed (ne_backslash_of_ofChar? hquote))
      exact lexemes_cons_append hclassify
  | @unclosedString quote text hquote htext =>
      have hclassify : classify quote (text ++ []) = (.string, text.length) := by
        rw [classify_string (isBlank_eq_false_of_ofChar? hquote) hquote, List.append_nil,
          htext.stringTail_eq]
      exact lexemes_cons_append hclassify
  | keyword hkeyword =>
      obtain ⟨c, tail, rfl, hc⟩ := exists_cons_of_mem_keywords hkeyword
      have hname := isNameChar_of_isAlpha hc
      have hclassify : classify c (tail ++ rest) = (.literal, tail.length) :=
        classify_keyword (isBlank_eq_false_of_isNameChar hname)
          (ofChar?_isSome_eq_false_of_isNameChar hname) (find?_keywords_append hkeyword rest)
      exact lexemes_cons_append hclassify
  | @identifier c run _ hc hkeyword hrun hrest =>
      have hname := isNameChar_of_isAlpha hc
      have hclassify : classify c (run ++ rest) = (.identifier, run.length) := by
        rw [classify_identifier (isBlank_eq_false_of_isNameChar hname)
          (ofChar?_isSome_eq_false_of_isNameChar hname) (find?_keywords_eq_none hkeyword) hc,
          takeWhile_append_of_stops hrun hrest]
      exact lexemes_cons_append hclassify
  | integer hsign hne hwhole hrest hrange =>
      have hfraction : Expression.fraction ([] ++ rest) = ([] : List Char).length :=
        fraction_eq_zero hrange
      have hstops : Stops Char.isDigit ([] ++ rest) := hrest
      have hnumber := lexemes_of_wholeNumber hsign hne hwhole hstops hfraction
      rwa [List.append_nil] at hnumber
  | decimal hsign hne hwhole hdigits hrest hrange =>
      apply lexemes_of_wholeNumber hsign hne hwhole (stops_cons.mpr (by decide))
      exact fraction_append hdigits hrest hrange
  | fraction hne hdigits hrest =>
      obtain ⟨d, digits, rfl⟩ := List.exists_cons_of_ne_nil hne
      have hd : d.isDigit := hdigits d List.mem_cons_self
      exact lexemes_of_number (isSign_of_mem (by decide)) (by simp [startsNumber, hd])
        (numberTail_point hdigits hrest)
  | pair hpair => exact lexemes_of_pair hpair
  | @operator c _ hc halone =>
      apply lexemes_of_standsAlone (isSign_of_mem (by simp [hc])) halone
      simp [hc]
  | @punctuation c _ hc halone =>
      have hall : Expression.punctuation.all fun c => !operators.contains c := by decide
      have hoperator : operators.contains c = false := by
        simpa only [Bool.not_eq_true'] using List.all_eq_true.mp hall c hc
      apply lexemes_of_standsAlone (isSign_of_mem (by simp [hc])) halone
      rw [hoperator]
      simp [hc]
  | plain hc hoperator hpunctuation halone =>
      apply lexemes_of_standsAlone hc halone
      simp [hoperator, hpunctuation]

end Completeness

end TemplateLexer.Expression
