import TemplateLexer.Proofs.LexemeClass

/-! # The order of the rules of expressions

How an expression is to be read is specified by rules in a fixed order, each of which says only
what its own lexemes look like: the first one that applies where a lexeme begins decides its kind
and its extent. None of them looks at the others, and each writes out its characters and words. A
number and a word are as long as they can be, and of a number this is said of all the ways to write
one at once, so that nothing is said about how the point of a number is told from the points of a
range while it is read.
-/

namespace TemplateLexer.Expression

/-- A way to write a lexeme, given what follows it. -/
abbrev Shape := List Char → List Char → Prop

/-- The longest beginning of a text that has a shape. -/
def Longest (shape : Shape) : Shape := fun source rest =>
  shape source rest ∧ ∀ other behind, other ++ behind = source ++ rest → shape other behind →
    other.length ≤ source.length

/-- A string goes up to the first quote that ends it, or to the end of the text if none does. -/
inductive IsQuoted : Shape where
  | closed {quote : Char} {inside rest : List Char} (hquote : quote = '\'' ∨ quote = '"')
      (hinside : Inside quote inside) : IsQuoted (quote :: (inside ++ [quote])) rest
  | unclosed {quote : Char} {text : List Char} (hquote : quote = '\'' ∨ quote = '"')
      (htext : Unclosed quote text) : IsQuoted (quote :: text) []

/-- A number is an integer, which a point and a fraction may follow, or a point and a fraction.
A point behind an integer has no other point behind it. -/
inductive IsNumber : Shape where
  | integer {sign whole rest : List Char} (hsign : sign ∈ signs) (hne : whole ≠ [])
      (hwhole : ∀ d ∈ whole, d.isDigit) : IsNumber (sign ++ whole) rest
  | decimal {sign whole fraction rest : List Char} (hsign : sign ∈ signs) (hne : whole ≠ [])
      (hwhole : ∀ d ∈ whole, d.isDigit) (hfraction : ∀ d ∈ fraction, d.isDigit)
      (hrange : (fraction ++ rest).head? ≠ some '.') :
      IsNumber (sign ++ (whole ++ '.' :: fraction)) rest
  | fraction {fraction rest : List Char} (hne : fraction ≠ [])
      (hfraction : ∀ d ∈ fraction, d.isDigit) : IsNumber ('.' :: fraction) rest

/-- The kind of some lexemes and the way to write them. -/
structure OrderedRule where
  kind : Token.Kind
  shape : Shape

namespace OrderedRule

/-- A rule applies to a text that begins with a lexeme of it. -/
def Applies (rule : OrderedRule) (text : List Char) : Prop :=
  ∃ source rest, text = source ++ rest ∧ rule.shape source rest

def tab : OrderedRule := ⟨.tab, fun source _ => source = ['\t']⟩

/-- A blank, which is no tab since the rule for tabs comes first. -/
def blank : OrderedRule := ⟨.whitespace, fun source _ => ∃ c ∈ whiteSpace, source = [c]⟩

def string : OrderedRule := ⟨.string, IsQuoted⟩

/-- A keyword, whatever follows it. -/
def keyword : OrderedRule := ⟨.literal, fun source _ => source ∈ literalSpellings⟩

def word : OrderedRule := ⟨.identifier, Longest fun source _ => IsWord source⟩

def number : OrderedRule := ⟨.number, Longest IsNumber⟩

def operatorPair : OrderedRule :=
  ⟨.operator, fun source _ => source ∈ operatorSpellings ∧ source.length = 2⟩

def operator : OrderedRule :=
  ⟨.operator, fun source _ => source ∈ operatorSpellings ∧ source.length = 1⟩

def mark : OrderedRule := ⟨.punctuation, fun source _ => source ∈ markSpellings⟩

/-- Any character. -/
def plain : OrderedRule := ⟨.plain, fun source _ => ∃ c, source = [c]⟩

/-- The rules in the order in which they are tried. -/
def inOrder : List OrderedRule :=
  [tab, blank, string, keyword, word, number, operatorPair, operator, mark, plain]

/-- The first of the rules that applies to a text reads `source` from it, and leaves `rest`. -/
inductive First : List OrderedRule → Token.Kind → List Char → List Char → Prop where
  | here {rule : OrderedRule} {rules : List OrderedRule} {source rest : List Char}
      (hshape : rule.shape source rest) : First (rule :: rules) rule.kind source rest
  | there {rule : OrderedRule} {rules : List OrderedRule} {kind : Token.Kind}
      {source rest : List Char} (hnot : ¬ rule.Applies (source ++ rest))
      (hfirst : First rules kind source rest) : First (rule :: rules) kind source rest

/-- The tokens of a text that stands at an offset, if each is read by the first rule that
applies. -/
inductive ReadsTokens : Nat → List Char → List Token → Prop where
  | nil {offset : Nat} : ReadsTokens offset [] []
  | cons {offset : Nat} {kind : Token.Kind} {source rest : List Char} {tokens : List Token}
      (hfirst : First inOrder kind source rest)
      (hrest : ReadsTokens (offset + source.length) rest tokens) :
      ReadsTokens offset (source ++ rest)
        (⟨kind, .ofList source, ⟨offset, offset + source.length⟩⟩ :: tokens)

end OrderedRule

section Longest

variable {shape : Shape} {source rest : List Char}

/-- A shape that is found at all is found at its greatest length. -/
theorem exists_longest (h : shape source rest) :
    ∃ longest behind, source ++ rest = longest ++ behind ∧ Longest shape longest behind := by
  induction hlength : rest.length using Nat.strong_induction_on generalizing source rest with
  | _ length ih =>
      by_cases hlonger : ∃ other behind, other ++ behind = source ++ rest ∧ shape other behind ∧
          source.length < other.length
      · obtain ⟨other, behind, htext, hother, hless⟩ := hlonger
        have hbehind : behind.length < length := by
          have hlengths := congrArg List.length htext
          simp only [List.length_append] at hlengths
          omega
        rw [← htext]
        exact ih behind.length hbehind hother rfl
      · refine ⟨source, rest, rfl, h, fun other behind htext hother => ?_⟩
        by_contra hless
        exact hlonger ⟨other, behind, htext, hother, Nat.lt_of_not_le hless⟩

/-- What is longest does not go on with anything. -/
theorem Longest.not_append {extra more : List Char} (h : Longest shape source (extra ++ more))
    (hne : extra ≠ []) : ¬ shape (source ++ extra) more := by
  intro hshape
  have hlength := h.2 (source ++ extra) more (List.append_assoc _ _ _) hshape
  have hpos := List.length_pos_iff.mpr hne
  rw [List.length_append] at hlength
  omega

/-- What is longest does not go on with a character of a class if it could. -/
theorem Longest.stops {p : Char → Bool} (h : Longest shape source rest)
    (hgoes : ∀ c more, rest = c :: more → p c → shape (source ++ [c]) more) : Stops p rest := by
  intro c hc
  obtain ⟨more, rfl⟩ := List.head?_eq_some_iff.mp hc
  rw [Bool.eq_false_iff]
  intro hp
  have hlongest : Longest shape source ([c] ++ more) := h
  exact hlongest.not_append (List.cons_ne_nil _ _) (hgoes c more rfl hp)

theorem forall_mem_append_singleton {p : Char → Bool} {run : List Char} {c : Char}
    (hrun : ∀ d ∈ run, p d) (hc : p c) : ∀ d ∈ run ++ [c], p d :=
  List.forall_mem_append.mpr ⟨hrun, List.forall_mem_singleton.mpr hc⟩

end Longest

section Rules

variable {c : Char} {source rest text : List Char}

/-- The longest word is what the lexer reads as an identifier, if it begins with no keyword. -/
theorem Longest.rule_identifier (h : Longest (fun source _ => IsWord source) source rest)
    (hkeyword : ∀ keyword ∈ keywords, ¬ keyword <+: source ++ rest) :
    Rule .identifier source rest := by
  obtain ⟨⟨c, run, rfl, hc, hword⟩, _⟩ := id h
  have hrun : ∀ d ∈ run, isIdentifierChar d := fun d hd => isIdentifierChar_iff.mpr (hword d hd)
  refine .identifier hc hkeyword hrun (h.stops fun d more _ hd => ?_)
  refine ⟨c, run ++ [d], rfl, hc, fun e he => isIdentifierChar_iff.mp ?_⟩
  exact forall_mem_append_singleton hrun hd e he

/-- The longest number is what the lexer reads as one. -/
theorem Longest.rule_number (h : Longest IsNumber source rest) : Rule .number source rest := by
  obtain ⟨hshape, _⟩ := id h
  cases hshape with
  | @integer sign whole _ hsign hne hwhole =>
      have hrest : Stops Char.isDigit rest := by
        apply h.stops
        intro d more _ hd
        rw [List.append_assoc]
        exact .integer hsign (by simp) (forall_mem_append_singleton hwhole hd)
      refine .integer hsign hne hwhole hrest fun hhead => ?_
      obtain ⟨more, rfl⟩ := List.head?_eq_some_iff.mp hhead
      by_cases hsecond : more.head? = some '.'
      · obtain ⟨behind, rfl⟩ := List.head?_eq_some_iff.mp hsecond
        exact ⟨behind, rfl⟩
      · -- Otherwise the point belongs to the number, which would be longer.
        have hlongest : Longest IsNumber (sign ++ whole) (['.'] ++ more) := h
        refine absurd ?_ (hlongest.not_append (List.cons_ne_nil _ _))
        rw [List.append_assoc]
        exact .decimal hsign hne hwhole (by simp) hsecond
  | @decimal sign whole digits _ hsign hne hwhole hdigits hrange =>
      refine .decimal hsign hne hwhole hdigits (h.stops fun d more hmore hd => ?_) ?_
      · subst hmore
        rw [List.append_assoc, List.append_assoc]
        refine .decimal hsign hne hwhole (forall_mem_append_singleton hdigits hd) ?_
        rwa [List.append_eq, List.append_assoc]
      · rintro rfl
        exact hrange
  | @fraction digits _ hne hdigits =>
      refine .fraction hne hdigits (h.stops fun d more _ hd => ?_)
      exact .fraction (by simp) (forall_mem_append_singleton hdigits hd)

theorem exists_isNumber_of_startsNumber (h : startsNumber c text) :
    ∃ source rest, c :: text = source ++ rest ∧ IsNumber source rest := by
  simp only [startsNumber, Bool.or_eq_true, Bool.and_eq_true, beq_iff_eq] at h
  rcases h with hdigit | ⟨hsign, hhead⟩
  · have hsign : [] ∈ signs := List.mem_cons_self
    exact ⟨[] ++ [c], text, rfl,
      .integer hsign (by simp) (List.forall_mem_singleton.mpr hdigit)⟩
  · obtain ⟨d, hd, hdigit⟩ := (Option.any_eq_true _ _).mp hhead
    obtain ⟨rest, rfl⟩ := List.head?_eq_some_iff.mp hd
    have hdigits : ∀ e ∈ [d], e.isDigit := List.forall_mem_singleton.mpr hdigit
    rcases hsign with rfl | rfl
    · have hsign : ['-'] ∈ signs := List.mem_cons_of_mem _ List.mem_cons_self
      exact ⟨['-'] ++ [d], rest, rfl, .integer hsign (by simp) hdigits⟩
    · exact ⟨['.', d], rest, rfl, .fraction (by simp) hdigits⟩

end Rules

section Spellings

theorem isOperatorPair_of_mem {source : List Char} (hmem : source ∈ operatorSpellings)
    (hlength : source.length = 2) :
    ∃ first second, source = [first, second] ∧ isOperatorPair first second := by
  obtain ⟨first, second, rfl⟩ := List.length_eq_two.mp hlength
  have hall : operatorSpellings.all fun spelling =>
      spelling.length != 2 || isOperatorPair (spelling.getD 0 ' ') (spelling.getD 1 ' ') := by
    decide
  exact ⟨first, second, rfl, by simpa using List.all_eq_true.mp hall _ hmem⟩

theorem mem_operators_of_mem {source : List Char} (hmem : source ∈ operatorSpellings)
    (hlength : source.length = 1) : ∃ c ∈ operators, source = [c] := by
  obtain ⟨c, rfl⟩ := List.length_eq_one_iff.mp hlength
  exact ⟨c, singleton_mem_operatorSpellings.mp hmem, rfl⟩

end Spellings

namespace OrderedRule

/-- One of the rules is the first that applies, if any does. -/
theorem exists_first {rules : List OrderedRule} {text : List Char}
    (h : ∃ rule ∈ rules, rule.Applies text) :
    ∃ kind source rest, text = source ++ rest ∧ First rules kind source rest := by
  induction rules with
  | nil => simp at h
  | cons rule rules ih =>
      by_cases happlies : rule.Applies text
      · obtain ⟨source, rest, rfl, hshape⟩ := happlies
        exact ⟨rule.kind, source, rest, rfl, .here hshape⟩
      · obtain ⟨other, hmem, hother⟩ := h
        have hlater : other ∈ rules := by
          rcases List.mem_cons.mp hmem with rfl | hlater
          · exact absurd hother happlies
          · exact hlater
        obtain ⟨kind, source, rest, rfl, hfirst⟩ := ih ⟨other, hlater, hother⟩
        exact ⟨kind, source, rest, rfl, .there happlies hfirst⟩

section Applies

variable {c : Char} {text : List Char}

theorem applies_blank (h : isBlank c) : blank.Applies (c :: text) :=
  ⟨[c], text, rfl, c, mem_whiteSpace_iff.mpr h, rfl⟩

theorem applies_string (h : (Quote.ofChar? c).isSome) : string.Applies (c :: text) := by
  rcases stringTail_cases (ne_backslash_of_ofChar? h) text with
    ⟨inside, rest, rfl, hinside, _⟩ | ⟨hunclosed, _⟩
  · exact ⟨c :: (inside ++ [c]), rest, by simp, .closed (eq_of_ofChar?_isSome h) hinside⟩
  · exact ⟨c :: text, [], by simp, .unclosed (eq_of_ofChar?_isSome h) hunclosed⟩

theorem applies_word (h : c.isAlpha) : word.Applies (c :: text) := by
  have hword : IsWord [c] := ⟨c, [], rfl, h, by simp⟩
  exact @exists_longest (fun source _ => IsWord source) [c] text hword

theorem applies_number (h : startsNumber c text) : number.Applies (c :: text) := by
  obtain ⟨source, rest, htext, hshape⟩ := exists_isNumber_of_startsNumber h
  rw [htext]
  exact exists_longest hshape

theorem applies_operatorPair (h : text.head?.any (isOperatorPair c)) :
    operatorPair.Applies (c :: text) := by
  obtain ⟨d, hd, hpair⟩ := (Option.any_eq_true _ _).mp h
  obtain ⟨rest, rfl⟩ := List.head?_eq_some_iff.mp hd
  exact ⟨[c, d], rest, rfl, mem_operatorSpellings_of_pair hpair, rfl⟩

theorem applies_operator (h : c ∈ operators) : operator.Applies (c :: text) :=
  ⟨[c], text, rfl, singleton_mem_operatorSpellings.mpr h, rfl⟩

theorem applies_mark (h : c ∈ punctuation) : mark.Applies (c :: text) :=
  ⟨[c], text, rfl, mem_markSpellings.mpr ⟨c, h, rfl⟩⟩

theorem standsAlone_of_not_applies (hnumber : ¬ number.Applies (c :: text))
    (hpair : ¬ operatorPair.Applies (c :: text)) : StandsAlone c text where
  number := Bool.eq_false_iff.mpr fun h => hnumber (applies_number h)
  pair := Bool.eq_false_iff.mpr fun h => hpair (applies_operatorPair h)

theorem isSign_of_not_applies (hblank : ¬ blank.Applies (c :: text))
    (hstring : ¬ string.Applies (c :: text)) (hword : ¬ word.Applies (c :: text)) : IsSign c where
  blank := Bool.eq_false_iff.mpr fun h => hblank (applies_blank h)
  quote := Bool.eq_false_iff.mpr fun h => hstring (applies_string h)
  letter := Bool.eq_false_iff.mpr fun h => hword (applies_word h)

end Applies

variable {kind : Token.Kind} {source rest : List Char}

/-- The first rule that applies reads what the lexer reads. -/
theorem First.rule (h : First inOrder kind source rest) : Rule kind source rest := by
  unfold inOrder at h
  obtain hshape | ⟨htab, h⟩ := h
  · rw [hshape]
    exact .tab
  obtain hshape | ⟨hblank, h⟩ := h
  · obtain ⟨c, hc, rfl⟩ := hshape
    refine .blank (mem_whiteSpace_iff.mp hc) ?_
    rintro rfl
    exact htab ⟨['\t'], rest, rfl, rfl⟩
  obtain hshape | ⟨hstring, h⟩ := h
  · cases hshape with
    | closed hquote hinside => exact .string (ofChar?_isSome_iff.mpr hquote) hinside
    | unclosed hquote htext => exact .unclosedString (ofChar?_isSome_iff.mpr hquote) htext
  obtain hshape | ⟨hkeyword, h⟩ := h
  · exact .keyword (mem_literalSpellings.mp hshape)
  obtain hshape | ⟨hword, h⟩ := h
  · apply Longest.rule_identifier hshape
    rintro text hmem ⟨behind, htext⟩
    exact hkeyword ⟨text, behind, htext.symm, mem_literalSpellings.mpr hmem⟩
  obtain hshape | ⟨hnumber, h⟩ := h
  · exact Longest.rule_number hshape
  obtain hshape | ⟨hpair, h⟩ := h
  · obtain ⟨first, second, rfl, hpair⟩ := isOperatorPair_of_mem hshape.1 hshape.2
    exact .pair hpair
  obtain hshape | ⟨hoperator, h⟩ := h
  · obtain ⟨c, hc, rfl⟩ := mem_operators_of_mem hshape.1 hshape.2
    exact .operator hc (standsAlone_of_not_applies hnumber hpair)
  obtain hshape | ⟨hmark, h⟩ := h
  · obtain ⟨c, hc, rfl⟩ := mem_markSpellings.mp hshape
    exact .punctuation hc (standsAlone_of_not_applies hnumber hpair)
  obtain hshape | ⟨_, h⟩ := h
  · obtain ⟨c, rfl⟩ := hshape
    exact .plain (isSign_of_not_applies hblank hstring hword)
      (fun hmem => hoperator (applies_operator hmem)) (fun hmem => hmark (applies_mark hmem))
      (standsAlone_of_not_applies hnumber hpair)
  · cases h

/-- The first rule that applies reads the next lexeme. -/
theorem First.lexemes_eq (h : First inOrder kind source rest) :
    lexemes (source ++ rest) = { kind, source } :: lexemes rest := h.rule.lexemes_eq

/-- Some rule is the first that applies, since the last one always does. -/
theorem exists_first_inOrder {text : List Char} (hne : text ≠ []) :
    ∃ kind source rest, text = source ++ rest ∧ First inOrder kind source rest := by
  obtain ⟨c, rest, rfl⟩ := List.exists_cons_of_ne_nil hne
  exact exists_first ⟨plain, by simp [inOrder], [c], rest, rfl, c, rfl⟩

/-- The tokens that the rules read are placed one after the other. -/
theorem readsTokens_iff {offset : Nat} {text : List Char} {tokens : List Token} :
    ReadsTokens offset text tokens ↔ tokens = Lexeme.placeAll offset (lexemes text) := by
  constructor
  · intro h
    induction h with
    | nil =>
        rw [lexemes]
        rfl
    | cons hfirst _ ih =>
        rw [hfirst.lexemes_eq, Lexeme.placeAll_cons hfirst.rule.ne_nil, ih]
        rfl
  · rintro rfl
    induction hlength : text.length using Nat.strong_induction_on generalizing offset text with
    | _ length ih =>
        by_cases hne : text = []
        · subst hne
          rw [lexemes]
          exact .nil
        · obtain ⟨kind, source, rest, rfl, hfirst⟩ := exists_first_inOrder hne
          have hless : rest.length < length := by
            have hpos := List.length_pos_iff.mpr hfirst.rule.ne_nil
            rw [← hlength, List.length_append]
            omega
          rw [hfirst.lexemes_eq, Lexeme.placeAll_cons hfirst.rule.ne_nil]
          exact .cons hfirst (ih rest.length hless rfl)

/-- The tokens of an expression, and no others, are those that the first applicable rule reads
wherever one of them begins. -/
theorem tokens_eq_iff_readsTokens (input : String) (tokens : List Token) :
    Expression.tokens input = tokens ↔ ReadsTokens 0 input.toList tokens := by
  rw [readsTokens_iff, Expression.tokens]
  exact eq_comm

end OrderedRule

end TemplateLexer.Expression
