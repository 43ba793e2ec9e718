import TemplateLexer.Proofs.AttributeValue

/-! # Expressions within templates

The expressions of a template are read as they are on their own: between the brackets of an
interpolation, and between the quotes of a value if its attribute is a directive. Any other
quoted value is read as it stands. The tokens of its name tell whether an attribute is a
directive.
-/

namespace TemplateLexer

open Sentence Markup

/-- What the lexer of expressions reads under a span of an input. -/
def Expression.tokensUnder (span : Span) (input : List Char) : List Token :=
  (tokens (.ofList (span.cut input))).map (Token.shift span.start)

/-- What an input says under a span as one token, unless it says nothing there. -/
def opaqueUnder (span : Span) (input : List Char) : List Token :=
  if span.cut input = [] then [] else [⟨.string, .ofList (span.cut input), span⟩]

/-- The tokens end in those of the name of an attribute and blanks. The name is all of the
tokens of names that stand there. -/
def EndsInName (tokens name : List Token) : Prop :=
  ∃ front blanks, tokens = front ++ (name ++ blanks) ∧ name ≠ [] ∧
    (∀ token ∈ name, token.kind ∈ AttributeName.kinds) ∧
    (∀ token ∈ blanks, token.kind.isBlank) ∧
    ∀ token ∈ front.getLast?, token.kind ∉ AttributeName.kinds

/-- The tokens behind the opening brackets of an interpolation are those of an expression up to
its closing brackets. -/
structure EnclosesExpression (input : List Char) (opening : Token) (inside : List Token)
    (closing : Token) : Prop where
  closes : closing.piece = interpolationMark '}'
  first : ∀ token ∈ inside, token.kind ≠ .interpolation
  tokens : inside = Expression.tokensUnder ⟨opening.span.stop, closing.span.start⟩ input

/-- The tokens behind the opening quote of a value are those of its contents up to the closing
quote, which is the first one that no backslash in the contents stands before. -/
structure EnclosesValue (input : List Char) (name : List Token) (opening : Token)
    (inside : List Token) (closing : Token) : Prop where
  closes : closing.piece = quoteMark
  contents : ∃ quoted : Template.Quoted,
    Span.cut ⟨opening.span.stop, closing.span.start⟩ input = quoted.contents
  tokens : inside =
    if AttributeName.isDirective (name.flatMap (·.text.toList)) then
      Expression.tokensUnder ⟨opening.span.stop, closing.span.start⟩ input
    else opaqueUnder ⟨opening.span.stop, closing.span.start⟩ input
  marked : AttributeName.isDirective (name.flatMap (·.text.toList)) ↔
    ∃ token ∈ name, token.kind = .directivePunctuation

section Spans

variable {input source : List Char} {start : Nat}

/-- Behind the place of a lexeme come the tokens of what it opens, which read the input up to what
closes it. -/
theorem Lexeme.placeAll_enclosed {first inside later : List Lexeme} {opening closing : Lexeme}
    (hne : closing.source ≠ [])
    (hstart : start = (sourceOf first).length + opening.source.length)
    (hbegins : sourceOf (first ++ opening :: (inside ++ closing :: later)) <+: input) :
    (∃ behind, placeAll start (inside ++ closing :: later) =
        placeAll start inside ++ closing.place (start + (sourceOf inside).length) :: behind) ∧
      ∃ after, input.drop start = sourceOf inside ++ (closing.source ++ after) := by
  constructor
  · rw [placeAll_append, placeAll_cons hne]
    exact ⟨_, rfl⟩
  · obtain ⟨more, rfl⟩ := hbegins
    have htext : sourceOf (first ++ opening :: (inside ++ closing :: later)) ++ more =
        (sourceOf first ++ opening.source) ++
          (sourceOf inside ++ (closing.source ++ (sourceOf later ++ more))) := by
      simp only [sourceOf_append, sourceOf_cons, List.append_assoc]
    rw [htext, hstart, ← List.length_append, List.drop_left]
    exact ⟨_, rfl⟩

theorem Expression.placeAll_lexemes
    (hcut : Span.cut ⟨start, start + source.length⟩ input = source) :
    Lexeme.placeAll start (lexemes source) = tokensUnder ⟨start, start + source.length⟩ input := by
  rw [tokensUnder, hcut, tokens, String.toList_ofList, ← Lexeme.placeAll_add]
  rfl

/-- The name of its attribute decides how the contents of a value are read. -/
theorem placeAll_contentsLexemes
    (hcut : Span.cut ⟨start, start + source.length⟩ input = source) (name : List Char) :
    Lexeme.placeAll start (Fragment.contentsLexemes source name) =
      if AttributeName.isDirective name then
        Expression.tokensUnder ⟨start, start + source.length⟩ input
      else opaqueUnder ⟨start, start + source.length⟩ input := by
  unfold Fragment.contentsLexemes
  split
  · exact Expression.placeAll_lexemes hcut
  · rw [opaqueUnder, hcut]
    cases source <;> rfl

end Spans

theorem sourceOf_markupLexemes_isPrefix (lenient : Bool) (input : List Char) :
    Lexeme.sourceOf (markupLexemes lenient input) <+: input := by
  rw [markupLexemes, Fragment.sourceOf_flatMap_lexemes]
  exact (run_sourceOf lenient (.content 0) input).1

/-- The lexeme that opens an interpolation is the first one, and the others are those of the
expression and of its end. -/
theorem Markup.Fragment.exists_of_lexemes_interpolation {body : List Char} {opening : Lexeme}
    {inner outer : List Lexeme}
    (h : (interpolation body).lexemes = inner ++ opening :: outer)
    (hopening : (opening.kind, opening.text) = interpolationMark '{') :
    inner = [] ∧ opening = { kind := .interpolation, source := ['{', '{'] } ∧
      outer = Expression.lexemes body ++ [{ kind := .interpolation, source := ['}', '}'] }] := by
  obtain ⟨hkind, htext⟩ := Prod.mk.inj hopening
  cases inner with
  | nil =>
      obtain ⟨rfl, rfl⟩ := List.cons.inj h
      exact ⟨rfl, rfl, rfl⟩
  | cons other inner =>
      obtain ⟨_, htail⟩ := List.cons.inj h
      have hlater : opening ∈ Expression.lexemes body ++
          [{ kind := .interpolation, source := interpolationClosing }] := by
        rw [List.append_eq] at htail
        rw [htail]
        exact List.mem_append_right _ List.mem_cons_self
      rcases List.mem_append.mp hlater with hbody | hclosing
      · have hexpression := Expression.mem_kinds_of_mem_lexemes hbody
        rw [hkind] at hexpression
        exact absurd hexpression (by decide)
      · obtain rfl := List.mem_singleton.mp hclosing
        exact absurd htext (by decide)

theorem Markup.exists_interpolation {lenient : Bool} {input : List Char}
    {first later : List Lexeme} {opening : Lexeme}
    (hopening : (opening.kind, opening.text) = interpolationMark '{')
    (h : markupLexemes lenient input = first ++ opening :: later) :
    ∃ body behind, .interpolation body ∈ (run lenient (.content 0) input).1 ∧
      opening = { kind := .interpolation, source := ['{', '{'] } ∧
      later = Expression.lexemes body ++
        { kind := .interpolation, source := ['}', '}'] } :: behind := by
  obtain ⟨front, fragment, after, inner, outer, hrun, hfragment, rfl, rfl⟩ :=
    Fragment.exists_of_flatMap_lexemes h
  have hmarkup := run_isMarkup lenient (.content 0) input fragment (by rw [hrun]; simp)
  have hmem : opening ∈ fragment.lexemes := by rw [hfragment]; simp
  obtain ⟨body, rfl⟩ := hmarkup.eq_interpolation
    ((Prod.mk.inj hopening).1 ▸ Fragment.kind_mem_kinds hmem)
  obtain ⟨_, rfl, rfl⟩ := Fragment.exists_of_lexemes_interpolation hfragment hopening
  exact ⟨body, after.flatMap Fragment.lexemes, by rw [hrun]; simp, rfl, List.append_assoc _ _ _⟩

/-- The opening brackets of an interpolation are followed by the expression that was read as its
body, in the tokens and in the input. -/
theorem exists_enclosed_body {lenient : Bool} {input : String} {before rest : List Token}
    {opening : Token} (htokens : (lex { lenient } input).tokens = before ++ opening :: rest)
    (hopening : opening.piece = interpolationMark '{') :
    ∃ inside closing behind body after, rest = inside ++ closing :: behind ∧
      EnclosesExpression input.toList opening inside closing ∧
      .interpolation body ∈ (run lenient (.content 0) input.toList).1 ∧
      input.toList.drop opening.span.stop = body ++ '}' :: '}' :: after ∧
      closing.span.start = opening.span.stop + body.length := by
  rw [lex_markup, lexMarkup_tokens] at htokens
  obtain ⟨first, opening, later, hlexemes, _, rfl, rfl⟩ := Lexeme.exists_of_placeAll_eq htokens
  rw [Lexeme.piece_place] at hopening
  obtain ⟨body, behind, hbody, rfl, rfl⟩ := exists_interpolation hopening hlexemes
  have hbegins := sourceOf_markupLexemes_isPrefix lenient input.toList
  rw [hlexemes] at hbegins
  rw [Nat.zero_add]
  obtain ⟨⟨tokens, htokens⟩, after, hdrop⟩ :=
    Lexeme.placeAll_enclosed (List.cons_ne_nil _ _) rfl hbegins
  rw [Expression.sourceOf_lexemes] at htokens hdrop
  refine ⟨_, _, tokens, body, after, htokens, ⟨Lexeme.piece_place _ _, ?_,
    Expression.placeAll_lexemes (Span.cut_of_drop hdrop)⟩, hbody, hdrop, rfl⟩
  intro token hmem hkind
  obtain ⟨lexeme, hlexeme, _, position, rfl⟩ := Lexeme.exists_of_mem_placeAll hmem
  have hexpression := Expression.mem_kinds_of_mem_lexemes hlexeme
  rw [show lexeme.kind = .interpolation from hkind] at hexpression
  exact absurd hexpression (by decide)

/-- The opening brackets of an interpolation are followed by its expression. -/
theorem lex_interpolation {lenient : Bool} {input : String} {before rest : List Token}
    {opening : Token} (htokens : (lex { lenient } input).tokens = before ++ opening :: rest)
    (hopening : opening.piece = interpolationMark '{') :
    ∃ inside closing behind, rest = inside ++ closing :: behind ∧
      EnclosesExpression input.toList opening inside closing := by
  obtain ⟨inside, closing, behind, _, _, hrest, hencloses, _⟩ :=
    exists_enclosed_body htokens hopening
  exact ⟨inside, closing, behind, hrest, hencloses⟩

/-- What stands before the sign in front of a value ends in the name of its attribute. -/
theorem endsInName_placeAll {front : List Lexeme} {name blanks : List Char} (hne : name ≠ [])
    (hfront : ∀ piece ∈ (Lexeme.piecesOf front).getLast?, piece.1 ∉ AttributeName.kinds)
    (start : Nat) :
    EndsInName
      (Lexeme.placeAll start (front ++ (AttributeName.lexemes name ++ blanks.map Lexeme.blank)))
      (Lexeme.placeAll (start + (Lexeme.sourceOf front).length) (AttributeName.lexemes name)) := by
  rw [Lexeme.placeAll_append, Lexeme.placeAll_append]
  refine ⟨_, _, rfl, ?_, ?_, ?_, ?_⟩
  · intro hnil
    have hpieces := Lexeme.map_piece_placeAll (start + (Lexeme.sourceOf front).length)
      (AttributeName.lexemes name)
    rw [hnil] at hpieces
    have hsource := Lexeme.sourceOf_eq_nil_of_piecesOf hpieces.symm
    rw [AttributeName.sourceOf_lexemes] at hsource
    exact hne hsource
  · intro token hmem
    obtain ⟨lexeme, hlexeme, _, position, rfl⟩ := Lexeme.exists_of_mem_placeAll hmem
    exact AttributeName.mem_kinds_of_mem_lexemes hlexeme
  · intro token hmem
    obtain ⟨lexeme, hlexeme, _, position, rfl⟩ := Lexeme.exists_of_mem_placeAll hmem
    obtain ⟨c, _, rfl⟩ := List.mem_map.mp hlexeme
    exact isBlank_kind_blank c
  · intro token hlast
    apply hfront token.piece
    rw [← Lexeme.map_piece_placeAll start, List.getLast?_map, Option.mem_def.mp hlast]
    rfl

/-- The tokens of a name say the name. -/
theorem flatMap_text_name (name : List Char) (start : Nat) :
    (Lexeme.placeAll start (AttributeName.lexemes name)).flatMap (·.text.toList) = name := by
  rw [Lexeme.flatMap_text_placeAll, AttributeName.sourceOf_lexemes]
  intro lexeme hmem
  obtain ⟨kind, _, source, rfl⟩ := AttributeName.exists_of_mem_lexemes hmem
  rfl

/-- The name of a directive is told by its punctuation. -/
theorem Sentence.Name.directive_iff {directive : Bool} {pieces : List Piece}
    (h : Name directive pieces) :
    directive ↔ ∃ piece ∈ pieces, piece.1 = .directivePunctuation := by
  cases h with
  | plain => simp
  | binding hinner => simp [directiveMark]
  | marked hstructural hdeclaration hmarked hrest =>
      simp only [structuralMarkers, declarationMarkers, List.mem_cons, List.not_mem_nil,
        or_false] at hstructural hdeclaration
      rcases hstructural with rfl | rfl | rfl <;> rcases hdeclaration with rfl | rfl <;>
        simp [directiveMark] at hmarked ⊢

theorem isDirective_iff (name : List Char) (start : Nat) :
    AttributeName.isDirective name ↔
      ∃ token ∈ Lexeme.placeAll start (AttributeName.lexemes name),
        token.kind = .directivePunctuation := by
  by_cases hne : name = []
  · subst hne
    refine iff_of_false (by decide) ?_
    rintro ⟨token, hmem, _⟩
    cases hmem
  have hpieces := Lexeme.map_piece_placeAll start (AttributeName.lexemes name)
  rw [(AttributeName.name_piecesOf hne).directive_iff, Fragment.lexemes, ← hpieces]
  simp [Token.piece]

/-- In front of a quoted value stands the name of its attribute, and behind its opening quote
stand its contents. -/
theorem lex_quotedValue {lenient : Bool} {input : String} {before blanks rest : List Token}
    {equals opening : Token}
    (htokens : (lex { lenient } input).tokens = before ++ equals :: (blanks ++ opening :: rest))
    (hequals : equals.kind = .equals) (hblanks : ∀ token ∈ blanks, token.kind.isBlank)
    (hopening : opening.piece = quoteMark) :
    ∃ name inside closing behind, EndsInName before name ∧ rest = inside ++ closing :: behind ∧
      EnclosesValue input.toList name opening inside closing := by
  rw [lex_markup, lexMarkup_tokens] at htokens
  obtain ⟨first, equals, later, hlexemes, rfl, rfl, hlater⟩ := Lexeme.exists_of_placeAll_eq htokens
  obtain ⟨middle, opening, later, rfl, rfl, rfl, rfl⟩ := Lexeme.exists_of_placeAll_eq hlater.symm
  rw [Lexeme.piece_place] at hopening
  have hmiddle : Blanks (Lexeme.piecesOf middle) := by
    intro piece hpiece
    rw [← Lexeme.map_piece_placeAll] at hpiece
    obtain ⟨token, htoken, rfl⟩ := List.mem_map.mp hpiece
    exact hblanks token htoken
  obtain ⟨front, name, spaces, contents, unread, behind, hfirst, hne, hfront, hcontents, rfl, rfl⟩ :=
    exists_quotedValue hequals hmiddle hopening hlexemes
  have hbegins := sourceOf_markupLexemes_isPrefix lenient input.toList
  rw [hlexemes, ← List.cons_append, ← List.append_assoc] at hbegins
  have hstart : 0 + (Lexeme.sourceOf first).length + equals.source.length +
      (Lexeme.sourceOf middle).length + 1 =
        (Lexeme.sourceOf (first ++ equals :: middle)).length + 1 := by
    rw [Lexeme.sourceOf_append, Lexeme.sourceOf_cons]
    simp only [List.length_append]
    omega
  obtain ⟨⟨tokens, htokens⟩, after, hdrop⟩ :=
    Lexeme.placeAll_enclosed (List.cons_ne_nil _ _) hstart hbegins
  rw [Fragment.sourceOf_contentsLexemes] at htokens hdrop
  have hcut := Span.cut_of_drop hdrop
  obtain ⟨quoted, hquoted⟩ := QuotedValue.exists_quoted hcontents
  have hends := @endsInName_placeAll front name spaces hne hfront 0
  rw [← hfirst] at hends
  have hname := flatMap_text_name name (0 + (Lexeme.sourceOf front).length)
  refine ⟨_, _, _, tokens, hends, htokens,
    ⟨Lexeme.piece_place _ _, ⟨quoted, hcut.trans hquoted.symm⟩, ?_, ?_⟩⟩
  · rw [hname]
    exact placeAll_contentsLexemes hcut name
  · rw [hname]
    exact isDirective_iff name _

/-- Every interpolation holds the tokens of its expression, and every quoted value those of an
expression if its attribute is a directive, in front of an error as well as without one. -/
theorem lex_embedded (lenient : Bool) (input : String) :
    (∀ before opening rest, (lex { lenient } input).tokens = before ++ opening :: rest →
      opening.piece = interpolationMark '{' →
      ∃ inside closing behind, rest = inside ++ closing :: behind ∧
        EnclosesExpression input.toList opening inside closing) ∧
      ∀ before equals blanks opening rest,
        (lex { lenient } input).tokens = before ++ equals :: (blanks ++ opening :: rest) →
        equals.kind = .equals → (∀ token ∈ blanks, token.kind.isBlank) →
        opening.piece = quoteMark →
        ∃ name inside closing behind, EndsInName before name ∧
          rest = inside ++ closing :: behind ∧
          EnclosesValue input.toList name opening inside closing :=
  ⟨fun _ _ _ htokens hopening => lex_interpolation htokens hopening,
    fun _ _ _ _ _ htokens hequals hblanks hopening =>
      lex_quotedValue htokens hequals hblanks hopening⟩

/-- The value of a structural directive, in a tag that is not ended. -/
theorem lex_embedded_directive :
    (lex {} "<a *b=\"1..5\"").isOk = false ∧
      ∃ name inside closing behind,
        EndsInName ((lex {} "<a *b=\"1..5\"").tokens.take 5) name ∧
        (lex {} "<a *b=\"1..5\"").tokens.drop 7 = inside ++ closing :: behind ∧
        EnclosesValue "<a *b=\"1..5\"".toList name ⟨.string, "\"", ⟨6, 7⟩⟩ inside closing := by
  have htokens : (lex {} "<a *b=\"1..5\"").tokens =
      (lex {} "<a *b=\"1..5\"").tokens.take 5 ++ ⟨.equals, "=", ⟨5, 6⟩⟩ ::
        ([] ++ ⟨.string, "\"", ⟨6, 7⟩⟩ :: (lex {} "<a *b=\"1..5\"").tokens.drop 7) := by
    decide +kernel
  exact ⟨by decide +kernel,
    (lex_embedded false _).2 _ _ [] _ _ htokens rfl (by simp) (by decide)⟩

end TemplateLexer
