import TemplateLexer.Proofs.Embedding
import TemplateLexer.Proofs.InterpolationExtent
import TemplateLexer.Proofs.LexemeClass

/-! # Strings within interpolations

The end of an interpolation is found by a reader that nests strings, and its body is then read as
an expression, whose strings do not nest: within one, the other quote is a character like any
other. The two disagree on where strings end. Still, for both of them two equal quotes next to each
other leave things as they were, so quotes that reduce to nothing leave no string open for either.
-/

namespace TemplateLexer

open Sentence Markup

namespace Quote

variable {opened : Option Quote} {first second : List Quote}

/-- Reads a quote where strings do not nest: it opens a string, or closes the open one if this has
been opened by the same quote. -/
def toggleFlat (opened : Option Quote) (quote : Quote) : Option Quote :=
  match opened with
  | none => some quote
  | some other => if other = quote then none else some other

theorem toggleFlat_toggleFlat (opened : Option Quote) (quote : Quote) :
    toggleFlat (toggleFlat opened quote) quote = opened := by
  cases opened with
  | none => simp [toggleFlat]
  | some other => by_cases heq : other = quote <;> simp [toggleFlat, heq]

theorem Cancels.foldl_toggleFlat_eq (h : Cancels first second) (opened : Option Quote) :
    first.foldl toggleFlat opened = second.foldl toggleFlat opened := by
  cases h with
  | mk before quote after => simp only [List.foldl_append, List.foldl_cons, toggleFlat_toggleFlat]

/-- Reduction does not change what is open where strings do not nest. -/
theorem Reduces.foldl_toggleFlat_eq (h : Reduces first second) (opened : Option Quote) :
    first.foldl toggleFlat opened = second.foldl toggleFlat opened := by
  induction h with
  | refl => rfl
  | tail _ hcancels ih => exact ih.trans (hcancels.foldl_toggleFlat_eq opened)

/-- The string that is open behind a text, if strings do not nest. -/
def openFlat (opened : Option Quote) (text : List Char) : Option Quote :=
  (quotesIn text).foldl toggleFlat opened

theorem openFlat_append (opened : Option Quote) (first second : List Char) :
    openFlat opened (first ++ second) = openFlat (openFlat opened first) second := by
  rw [openFlat, quotesIn_append, List.foldl_append]
  rfl

theorem openFlat_of_not_quote {text : List Char} (h : ∀ c ∈ text, (ofChar? c).isSome = false)
    (opened : Option Quote) : openFlat opened text = opened := by
  have hnone : quotesIn text = [] := by
    rw [quotesIn, List.filterMap_eq_nil_iff]
    exact fun c hc => Option.isNone_iff_eq_none.mp (by simpa using h c hc)
  rw [openFlat, hnone]
  rfl

theorem eq_of_ofChar? {c d : Char} {quote : Quote} (hc : ofChar? c = some quote)
    (hd : ofChar? d = some quote) : c = d := by
  rcases Expression.eq_of_ofChar?_isSome (Option.isSome_of_eq_some hc) with rfl | rfl <;>
    rcases Expression.eq_of_ofChar?_isSome (Option.isSome_of_eq_some hd) with rfl | rfl
  · rfl
  · exact absurd (hc.trans hd.symm) (by decide)
  · exact absurd (hc.trans hd.symm) (by decide)
  · rfl

theorem openFlat_cons (opened : Option Quote) (c : Char) (text : List Char) :
    openFlat opened (c :: text) = openFlat (openFlat opened [c]) text :=
  openFlat_append opened [c] text

theorem openFlat_quote {c : Char} {quote : Quote} (hc : ofChar? c = some quote)
    (opened : Option Quote) : openFlat opened [c] = toggleFlat opened quote := by
  simp [openFlat, quotesIn, hc]

/-- A string stays open through a text without the quote that opened it. -/
theorem openFlat_of_not_mem {c : Char} {quote : Quote} (hc : ofChar? c = some quote)
    {text : List Char} (h : c ∉ text) : openFlat (some quote) text = some quote := by
  induction text with
  | nil => rfl
  | cons d text ih =>
      obtain ⟨hne, hrest⟩ := not_or.mp (mt List.mem_cons.mpr h)
      have hfirst : openFlat (some quote) [d] = some quote := by
        cases hd : ofChar? d with
        | none => exact openFlat_of_not_quote (by simp [hd]) _
        | some other =>
            have hother : quote ≠ other := by
              rintro rfl
              exact hne (eq_of_ofChar? hc hd)
            rw [openFlat_quote hd, toggleFlat, if_neg hother]
      rw [openFlat_cons, hfirst, ih hrest]

/-- A quote opens a string, which stays open until the quote comes again. -/
theorem openFlat_none_cons {c : Char} {quote : Quote} (hc : ofChar? c = some quote)
    {text : List Char} (h : c ∉ text) : openFlat none (c :: text) = some quote := by
  rw [openFlat_cons, openFlat_quote hc, toggleFlat, openFlat_of_not_mem hc h]

end Quote

namespace Expression

open Quote

variable {kind : Token.Kind} {source rest : List Char}

/-- A string has two ends, and they are alike. -/
def IsClosed (text : List Char) : Prop := 2 ≤ text.length ∧ text.getLast? = text.head?

/-- Without a backslash nothing protects a quote from ending its string. -/
theorem Inside.not_mem {quote : Char} {inside : List Char} (h : Inside quote inside)
    (hplain : '\\' ∉ inside) : quote ∉ inside := by
  induction h with
  | nil => exact List.not_mem_nil
  | escaped => exact absurd List.mem_cons_self hplain
  | plain hquote _ _ ih =>
      exact List.not_mem_cons_of_ne_of_not_mem hquote.symm
        (ih (List.not_mem_of_not_mem_cons hplain))

theorem Unclosed.not_mem {quote : Char} {text : List Char} (h : Unclosed quote text)
    (hplain : '\\' ∉ text) : quote ∉ text := by
  obtain ⟨inside, hinside, rfl | rfl⟩ := h
  · exact hinside.not_mem hplain
  · exact absurd (List.mem_append_right inside List.mem_cons_self) hplain

/-- A string that its expression does not end is left open where strings do not nest. -/
theorem Unclosed.openFlat_isSome {quote : Char} {text : List Char} (h : Unclosed quote text)
    (hquote : (ofChar? quote).isSome) (hplain : '\\' ∉ quote :: text) :
    (openFlat none (quote :: text)).isSome := by
  obtain ⟨opener, hopener⟩ := Option.isSome_iff_exists.mp hquote
  have hinner : quote ∉ text := h.not_mem (List.not_mem_of_not_mem_cons hplain)
  exact Option.isSome_of_eq_some (openFlat_none_cons hopener hinner)

theorem not_quote_of_all {words : List (List Char)} {word : List Char}
    (hall : words.all fun word => word.all fun c => !(ofChar? c).isSome) (hmem : word ∈ words) :
    ∀ c ∈ word, (ofChar? c).isSome = false := by
  simpa using List.all_eq_true.mp (List.all_eq_true.mp hall word hmem)

theorem not_quote_of_digits {digits : List Char} (hdigits : ∀ d ∈ digits, d.isDigit) :
    ∀ c ∈ digits, (ofChar? c).isSome = false :=
  fun c hc => (isSign_of_isDigit (hdigits c hc)).quote

/-- Only strings have quotes in them. -/
theorem Rule.not_quote (h : Rule kind source rest) (hkind : kind ≠ .string) :
    ∀ c ∈ source, (ofChar? c).isSome = false := by
  have hsign : ∀ sign ∈ signs, ∀ c ∈ sign, (ofChar? c).isSome = false :=
    fun sign hmem => not_quote_of_all (by decide) hmem
  cases h with
  | tab => exact List.forall_mem_singleton.mpr rfl
  | blank hc _ =>
      rw [List.forall_mem_singleton, Bool.eq_false_iff]
      intro hquote
      rw [isBlank_eq_false_of_ofChar? hquote] at hc
      cases hc
  | string => exact absurd rfl hkind
  | unclosedString => exact absurd rfl hkind
  | keyword hkeyword => exact not_quote_of_all (by decide) hkeyword
  | identifier hc _ hrun _ =>
      refine List.forall_mem_cons.mpr
        ⟨ofChar?_isSome_eq_false_of_isNameChar (isNameChar_of_isAlpha hc), fun d hd => ?_⟩
      rcases (Bool.or_eq_true _ _).mp (hrun d hd) with halpha | hline
      · exact ofChar?_isSome_eq_false_of_isNameChar (isNameChar_of_isAlpha halpha)
      · rw [eq_of_beq hline]
        rfl
  | integer hmem _ hwhole =>
      exact List.forall_mem_append.mpr ⟨hsign _ hmem, not_quote_of_digits hwhole⟩
  | @decimal _ _ fraction _ hmem _ hwhole hdigits =>
      have hfraction : ∀ c ∈ '.' :: fraction, (ofChar? c).isSome = false :=
        List.forall_mem_cons.mpr ⟨rfl, not_quote_of_digits hdigits⟩
      exact List.forall_mem_append.mpr
        ⟨hsign _ hmem, List.forall_mem_append.mpr ⟨not_quote_of_digits hwhole, hfraction⟩⟩
  | fraction _ hdigits => exact List.forall_mem_cons.mpr ⟨rfl, not_quote_of_digits hdigits⟩
  | pair hpair => exact not_quote_of_all (by decide) (mem_operatorSpellings_of_pair hpair)
  | operator hc => exact List.forall_mem_singleton.mpr (isSign_of_mem (by simp [hc])).quote
  | punctuation hc => exact List.forall_mem_singleton.mpr (isSign_of_mem (by simp [hc])).quote
  | plain hc => exact List.forall_mem_singleton.mpr hc.quote

/-- Where no string is open, a lexeme without a backslash opens none, unless it is a string that its
expression does not end. -/
theorem Rule.openFlat_cases (h : Rule kind source rest) (hplain : '\\' ∉ source) :
    (openFlat none source = none ∧ (kind = .string → IsClosed source)) ∨
      ((openFlat none source).isSome ∧ rest = []) := by
  by_cases hkind : kind = .string
  · subst hkind
    cases h with
    | @string quote inside _ hquote hinside =>
        obtain ⟨opener, hopener⟩ := Option.isSome_iff_exists.mp hquote
        have hinner : quote ∉ inside := hinside.not_mem fun hmem => hplain (by simp [hmem])
        refine .inl ⟨?_, fun _ => ⟨by simp, ?_⟩⟩
        · rw [← List.cons_append, openFlat_append, openFlat_none_cons hopener hinner,
            openFlat_quote hopener, toggleFlat, if_pos rfl]
        · rw [← List.cons_append, List.getLast?_concat]
          rfl
    | unclosedString hquote htext => exact .inr ⟨htext.openFlat_isSome hquote hplain, rfl⟩
  · exact .inl ⟨openFlat_of_not_quote (h.not_quote hkind) none, fun hstring => absurd hstring hkind⟩

section Brackets

variable {after : List Char} {c : Char}

/-- What holds of the character behind a text, if there is one, holds of it with a bracket and more
behind the text. -/
theorem forall_head?_append {P : Char → Prop} (hrest : ∀ c ∈ rest.head?, P c) (hbracket : P '}') :
    ∀ c ∈ (rest ++ '}' :: after).head?, P c := by
  cases rest with
  | nil => simpa using hbracket
  | cons d rest => exact hrest

/-- No operator ends in a closing bracket. -/
theorem isOperatorPair_bracket (c : Char) : isOperatorPair c '}' = false := by
  have hdoubled : ¬ (c ∈ doubledOperators ∧ '}' = c) := by
    rintro ⟨hmem, rfl⟩
    exact absurd hmem (by decide)
  have htilde : '}' ∉ tildeFollowers := by decide
  simpa [isOperatorPair, htilde] using hdoubled

theorem StandsAlone.append_bracket (h : StandsAlone c rest) :
    StandsAlone c (rest ++ '}' :: after) where
  number := by
    have hnumber := h.number
    simp only [startsNumber, Bool.or_eq_false_iff, Bool.and_eq_false_iff,
      Option.any_eq_false] at hnumber ⊢
    exact ⟨hnumber.1, hnumber.2.imp_right fun hrest => forall_head?_append hrest (by decide)⟩
  pair := by
    have hpair := h.pair
    rw [Option.any_eq_false] at hpair ⊢
    exact forall_head?_append hpair (by simp [isOperatorPair_bracket])

/-- A closing bracket and what follows it spell no keyword. -/
theorem keyword_isPrefix_of_append {keyword text : List Char} (hkeyword : keyword ∈ keywords)
    (h : keyword <+: text ++ '}' :: after) : keyword <+: text := by
  rcases List.prefix_or_prefix_of_prefix h (List.prefix_append text ('}' :: after)) with
    hshorter | ⟨more, rfl⟩
  · exact hshorter
  · have hall : keywords.all fun keyword => !keyword.contains '}' := by decide
    have hbracket : '}' ∉ text ++ more := by
      simpa using List.all_eq_true.mp hall _ hkeyword
    have hmore : more <+: '}' :: after := (List.prefix_append_right_inj text).mp h
    cases more with
    | nil => exact (List.append_nil text).symm ▸ List.prefix_rfl
    | cons d more =>
        obtain ⟨rfl, _⟩ := List.cons_prefix_cons.mp hmore
        exact absurd (List.mem_append_right text List.mem_cons_self) hbracket

/-- A lexeme is read alike if a closing bracket and more are put behind the text, unless it is a
string that the text does not end. -/
theorem Rule.append_bracket (h : Rule kind source rest)
    (hopen : openFlat none source = none) (hplain : '\\' ∉ source) :
    Rule kind source (rest ++ '}' :: after) := by
  cases h with
  | tab => exact .tab
  | blank hc htab => exact .blank hc htab
  | string hquote hinside => exact .string hquote hinside
  | unclosedString hquote htext =>
      have hsome := htext.openFlat_isSome hquote hplain
      rw [hopen] at hsome
      cases hsome
  | keyword hkeyword => exact .keyword hkeyword
  | @identifier c run _ hc hkeyword hrun hrest =>
      refine .identifier hc (fun keyword hmem hfound => hkeyword keyword hmem ?_) hrun
        (forall_head?_append hrest (by decide))
      rw [← List.append_assoc, ← List.cons_append] at hfound
      exact keyword_isPrefix_of_append hmem hfound
  | integer hsign hne hwhole hrest hrange =>
      refine .integer hsign hne hwhole (forall_head?_append hrest (by decide)) fun hhead => ?_
      cases rest with
      | nil => cases hhead
      | cons d rest => exact (hrange hhead).trans (List.prefix_append _ _)
  | decimal hsign hne hwhole hdigits hrest hrange =>
      refine .decimal hsign hne hwhole hdigits (forall_head?_append hrest (by decide))
        fun hnil hhead => ?_
      cases rest with
      | nil => cases hhead
      | cons d rest => exact hrange hnil hhead
  | fraction hne hdigits hrest =>
      exact .fraction hne hdigits (forall_head?_append hrest (by decide))
  | pair hpair => exact .pair hpair
  | operator hc halone => exact .operator hc halone.append_bracket
  | punctuation hc halone => exact .punctuation hc halone.append_bracket
  | plain hc hoperator hpunctuation halone =>
      exact .plain hc hoperator hpunctuation halone.append_bracket

theorem lexemes_bracket (after : List Char) :
    lexemes ('}' :: after) = { kind := .plain, source := ['}'] } :: lexemes after := by
  have hsign : IsSign '}' := ⟨by decide, by decide, by decide⟩
  have halone : StandsAlone '}' after := by
    refine ⟨by simp [startsNumber], ?_⟩
    rw [Option.any_eq_false]
    intro c _
    simp [isOperatorPair, doubledOperators, comparisons]
  exact (Rule.plain hsign (by decide) (by decide) halone).lexemes_eq

/-- Where quotes open no string that is left open, every string is closed, and closing brackets are
read behind it all. -/
theorem lexemes_of_openFlat {text : List Char} (hopen : openFlat none text = none)
    (hplain : '\\' ∉ text) (after : List Char) :
    (∀ lexeme ∈ lexemes text, lexeme.kind = .string → IsClosed lexeme.text) ∧
      lexemes (text ++ '}' :: after) = lexemes text ++ lexemes ('}' :: after) := by
  refine lexemes_induction (motive := fun text read =>
    openFlat none text = none → '\\' ∉ text →
    (∀ lexeme ∈ read, lexeme.kind = .string → IsClosed lexeme.text) ∧
      lexemes (text ++ '}' :: after) = read ++ lexemes ('}' :: after)) ?_ ?_ text hopen hplain
  · exact fun _ _ => ⟨by simp, rfl⟩
  · intro kind source rest hrule ih hopen hplain
    rw [List.mem_append, not_or] at hplain
    rw [openFlat_append] at hopen
    rcases hrule.openFlat_cases hplain.1 with ⟨hsource, hclosed⟩ | ⟨hsome, rfl⟩
    · rw [hsource] at hopen
      obtain ⟨hrest, hbehind⟩ := ih hopen hplain.2
      refine ⟨List.forall_mem_cons.mpr ⟨hclosed, hrest⟩, ?_⟩
      rw [List.append_assoc, (hrule.append_bracket hsource hplain.1).lexemes_eq, hbehind]
      rfl
    · -- A string that the text does not end would be open behind it.
      have hnone : openFlat none source = none := hopen
      rw [hnone] at hsome
      cases hsome

end Brackets

end Expression

open Quote Markup.Interpolation

theorem Markup.Interpolation.reduces_of_extent {body rest : List Char}
    (h : extent (body ++ '}' :: '}' :: rest) = .closed body.length) :
    Reduces (quotesIn body) [] := by
  have hdescribes := describes_extent (body ++ '}' :: '}' :: rest)
  rw [h] at hdescribes
  have hempty := hdescribes.1.2.2
  rw [List.take_left] at hempty
  exact reduces_nil_iff.mpr hempty

/-- The quotes of a body that is accepted reduce to nothing. -/
theorem Markup.reduces_of_mem_run {lenient : Bool} {state : State} {text body : List Char}
    (h : .interpolation body ∈ (run lenient state text).1) : Reduces (quotesIn body) [] := by
  refine forall_mem_run (P := fun fragment =>
    ∀ body, fragment = .interpolation body → Reduces (quotesIn body) []) ?_ ?_ state text _ h body rfl
  · intro state text emitted failure hrefusal fragment hmem body hbody
    subst hbody
    cases hrefusal <;> simp at hmem
  · intro state text emitted next rest hadvance fragment hmem body hbody
    subst hbody
    cases hadvance with
    | @interpolation depth read unread hextent =>
        obtain rfl : body = read := by simpa using hmem
        exact reduces_of_extent hextent
    | _ => simp [Fragment.tagPunctuation, Fragment.subtreeBrace, Fragment.equals] at hmem

/-- Where strings do not nest, an accepted body leaves none open. -/
theorem Markup.openFlat_of_mem_run {lenient : Bool} {state : State} {text body : List Char}
    (h : .interpolation body ∈ (run lenient state text).1) : openFlat none body = none :=
  (reduces_of_mem_run h).foldl_toggleFlat_eq none

/-- The first mark of an interpolation among tokens is found at one place only. -/
theorem eq_of_first_interpolation {inside other behind later : List Token} {closing last : Token}
    (heq : inside ++ closing :: behind = other ++ last :: later)
    (hclosing : closing.kind = .interpolation) (hlast : last.kind = .interpolation)
    (hinside : ∀ token ∈ inside, token.kind ≠ .interpolation)
    (hother : ∀ token ∈ other, token.kind ≠ .interpolation) :
    inside = other ∧ closing = last := by
  have hfirst : ∀ {tokens behind : List Token} {mark : Token},
      (∀ token ∈ tokens, token.kind ≠ .interpolation) → mark.kind = .interpolation →
      (tokens ++ mark :: behind).takeWhile (·.kind ≠ .interpolation) = tokens := by
    intro tokens behind mark htokens hmark
    rw [List.takeWhile_append_of_pos (by simpa using htokens),
      List.takeWhile_cons_of_neg (by simpa using hmark), List.append_nil]
  have hsame : inside = other := by
    rw [← hfirst hinside hclosing, heq, hfirst hother hlast]
  subst hsame
  exact ⟨rfl, (List.cons.inj (List.append_cancel_left heq)).1⟩

theorem Expression.tokensUnder_of_drop {input text : List Char} {start : Nat}
    (h : input.drop start = text) :
    tokensUnder ⟨start, input.length⟩ input = Lexeme.placeAll start (lexemes text) := by
  rw [tokensUnder, Span.cut, List.take_length, h, tokens, String.toList_ofList,
    ← Lexeme.placeAll_add]
  rfl

/-- In an interpolation without a backslash every string is closed, though strings nest where its
end is sought and do not nest where its body is read. An expression that is read on behind the body
finds the closing brackets outside of its strings. -/
theorem lex_interpolation_strings (lenient : Bool) (input : String)
    {before inside behind : List Token} {opening closing : Token}
    (htokens : (lex { lenient } input).tokens =
      before ++ opening :: (inside ++ closing :: behind))
    (hopening : opening.piece = interpolationMark '{')
    (hclosing : closing.piece = interpolationMark '}')
    (hinside : ∀ token ∈ inside, token.kind ≠ .interpolation)
    (hplain : '\\' ∉ Span.cut ⟨opening.span.stop, closing.span.start⟩ input.toList) :
    inside = Expression.tokensUnder ⟨opening.span.stop, closing.span.start⟩ input.toList ∧
      (∀ token ∈ inside, token.kind = .string → Expression.IsClosed token.text.toList) ∧
      ∃ more, Expression.tokensUnder ⟨opening.span.stop, input.length⟩ input.toList =
        inside ++ ⟨.plain, "\x7d", ⟨closing.span.start, closing.span.start + 1⟩⟩ ::
          ⟨.plain, "\x7d", ⟨closing.span.start + 1, closing.span.start + 2⟩⟩ :: more := by
  obtain ⟨_, _, _, body, after, hrest, hencloses, hbody, hdrop, hstart⟩ :=
    exists_enclosed_body htokens hopening
  obtain ⟨rfl, rfl⟩ := eq_of_first_interpolation hrest (Prod.mk.inj hclosing).1
    (Prod.mk.inj hencloses.closes).1 hinside hencloses.first
  have hcut := Span.cut_of_drop hdrop
  rw [← hstart] at hcut
  rw [hcut] at hplain
  obtain ⟨hclosed, hbehind⟩ :=
    Expression.lexemes_of_openFlat (openFlat_of_mem_run hbody) hplain ('}' :: after)
  have hplaced : inside = Lexeme.placeAll opening.span.stop (Expression.lexemes body) := by
    rw [hencloses.tokens, hstart]
    exact (Expression.placeAll_lexemes (hstart ▸ hcut)).symm
  refine ⟨hencloses.tokens, fun token hmem hkind => ?_, ?_⟩
  · rw [hplaced] at hmem
    obtain ⟨lexeme, hlexeme, _, position, rfl⟩ := Lexeme.exists_of_mem_placeAll hmem
    rw [Lexeme.place, String.toList_ofList]
    exact hclosed lexeme hlexeme hkind
  · rw [Expression.lexemes_bracket, Expression.lexemes_bracket] at hbehind
    rw [← String.length_toList, Expression.tokensUnder_of_drop hdrop, hbehind,
      Lexeme.placeAll_append, ← hplaced, Expression.sourceOf_lexemes, ← hstart]
    exact ⟨_, rfl⟩

/-- Three strings within one another where the end is sought are two strings around a name where the
body is read. -/
theorem lex_interpolation_strings_nested :
    (lex {} "\x7b\x7b'\"'c'\"'\x7d\x7d").tokens =
        [] ++ ⟨.interpolation, "\x7b\x7b", ⟨0, 2⟩⟩ ::
          ([⟨.string, "'\"'", ⟨2, 5⟩⟩, ⟨.identifier, "c", ⟨5, 6⟩⟩, ⟨.string, "'\"'", ⟨6, 9⟩⟩] ++
            ⟨.interpolation, "\x7d\x7d", ⟨9, 11⟩⟩ :: []) ∧
      Expression.IsClosed "'\"'".toList ∧
      ∃ more, Expression.tokensUnder ⟨2, 11⟩ "\x7b\x7b'\"'c'\"'\x7d\x7d".toList =
        [⟨.string, "'\"'", ⟨2, 5⟩⟩, ⟨.identifier, "c", ⟨5, 6⟩⟩, ⟨.string, "'\"'", ⟨6, 9⟩⟩] ++
          ⟨.plain, "\x7d", ⟨9, 10⟩⟩ :: ⟨.plain, "\x7d", ⟨10, 11⟩⟩ :: more := by
  have htokens : (lex {} "\x7b\x7b'\"'c'\"'\x7d\x7d").tokens =
      [] ++ ⟨.interpolation, "\x7b\x7b", ⟨0, 2⟩⟩ ::
        ([⟨.string, "'\"'", ⟨2, 5⟩⟩, ⟨.identifier, "c", ⟨5, 6⟩⟩, ⟨.string, "'\"'", ⟨6, 9⟩⟩] ++
          ⟨.interpolation, "\x7d\x7d", ⟨9, 11⟩⟩ :: []) := by
    decide +kernel
  obtain ⟨_, hclosed, hbehind⟩ := lex_interpolation_strings false _ htokens (by decide) (by decide)
    (by decide) (by decide)
  exact ⟨htokens, hclosed _ List.mem_cons_self rfl, hbehind⟩

end TemplateLexer
