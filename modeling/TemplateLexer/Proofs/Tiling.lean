import TemplateLexer.Lex
import TemplateLexer.Proofs.Source

/-! # Tokens tile the input

The tokens of an input cover a beginning of it without gap or overlap, and all of
it if there is no error. This is an invariant of runs, for every production emits
exactly the characters that it reads. Placing lexemes one after the other turns
it into a statement about spans.
-/

namespace TemplateLexer

namespace Token

/-- The spans of the tokens lead from one position to another, each of them
beginning where the one before it ends, and none of them is empty. -/
inductive Tile : Nat → List Token → Nat → Prop where
  | nil {start : Nat} : Tile start [] start
  | cons {token : Token} {rest : List Token} {stop : Nat} (hne : token.span.start < token.span.stop)
      (hrest : Tile token.span.stop rest stop) : Tile token.span.start (token :: rest) stop

/-- A token is read from the input under its span: a word of markup text says what it
means, and any other token says what stands there. -/
def Reads (input : List Char) (token : Token) : Prop :=
  if token.kind = .text then Markup.Text.Means (token.span.cut input) token.text.toList
  else token.text.toList = token.span.cut input

theorem Tile.le {start stop : Nat} {tokens : List Token} (h : Tile start tokens stop) :
    start ≤ stop := by
  induction h with
  | nil => exact Nat.le_refl _
  | cons hne _ ih => omega

theorem Tile.stop_le {start stop : Nat} {tokens : List Token} (h : Tile start tokens stop)
    {token : Token} (hmem : token ∈ tokens) : token.span.stop ≤ stop := by
  induction h with
  | nil => cases hmem
  | cons _ hrest ih =>
      rcases List.mem_cons.mp hmem with rfl | htail
      · exact hrest.le
      · exact ih htail

/-- Tokens end where the last of them does. -/
theorem Tile.stop_eq {start stop : Nat} {tokens : List Token} (h : Tile start tokens stop) :
    stop = match tokens.getLast? with
      | none => start
      | some token => token.span.stop := by
  induction h with
  | nil => rfl
  | @cons token rest stop _ hrest ih =>
      cases rest with
      | nil => exact ih
      | cons next tail => rwa [List.getLast?_cons_cons]

end Token

theorem Lexed.consumed_eq {lexed : Lexed} {stop : Nat} (h : Token.Tile 0 lexed.tokens stop) :
    lexed.consumed = stop :=
  h.stop_eq.symm

theorem Span.cut_append (before inside behind : List Char) :
    cut ⟨before.length, before.length + inside.length⟩ (before ++ (inside ++ behind)) = inside := by
  rw [cut, ← List.append_assoc, ← List.length_append, List.take_left, List.drop_left]

/-- Behind a part of an input stands what comes after it. -/
theorem drop_add_length {input source after : List Char} {start : Nat}
    (h : input.drop start = source ++ after) : input.drop (start + source.length) = after := by
  rw [← List.drop_drop, h, List.drop_left]

theorem Span.cut_of_drop {input source after : List Char} {start : Nat}
    (h : input.drop start = source ++ after) :
    cut ⟨start, start + source.length⟩ input = source := by
  rw [cut, List.drop_take, Nat.add_sub_cancel_left, h, List.take_left]

namespace Lexeme

theorem placeAll_cons {lexeme : Lexeme} (hne : lexeme.source ≠ []) (offset : Nat)
    (rest : List Lexeme) :
    placeAll offset (lexeme :: rest) =
      lexeme.place offset :: placeAll (offset + lexeme.source.length) rest := by
  rw [placeAll, if_neg (by simpa using hne)]

/-- A token is a lexeme that was placed behind those of the tokens in front of it. -/
theorem exists_of_placeAll_eq {offset : Nat} {lexemes : List Lexeme} {before behind : List Token}
    {token : Token} (h : placeAll offset lexemes = before ++ token :: behind) :
    ∃ first lexeme later, lexemes = first ++ lexeme :: later ∧ before = placeAll offset first ∧
      token = lexeme.place (offset + (sourceOf first).length) ∧
      behind = placeAll (offset + (sourceOf first).length + lexeme.source.length) later := by
  induction lexemes generalizing offset before with
  | nil => simp [placeAll] at h
  | cons head rest ih =>
      rw [placeAll] at h
      split at h
      next hempty =>
        obtain ⟨first, lexeme, later, rfl, rfl, htoken, hbehind⟩ := ih h
        have hsource : sourceOf (head :: first) = sourceOf first := by
          rw [sourceOf_cons, List.isEmpty_iff.mp hempty, List.nil_append]
        refine ⟨head :: first, lexeme, later, rfl, ?_, ?_⟩
        · rw [placeAll, if_pos hempty]
        · rw [hsource]
          exact ⟨htoken, hbehind⟩
      next hne =>
        cases before with
        | nil =>
            obtain ⟨htoken, hbehind⟩ := List.cons.inj h
            exact ⟨[], head, rest, rfl, rfl, htoken.symm, hbehind.symm⟩
        | cons other before =>
            obtain ⟨rfl, hrest⟩ := List.cons.inj h
            obtain ⟨first, lexeme, later, rfl, rfl, htoken, hbehind⟩ := ih hrest
            have hsource : offset + (sourceOf (head :: first)).length =
                offset + head.source.length + (sourceOf first).length := by
              rw [sourceOf_cons, List.length_append, Nat.add_assoc]
            refine ⟨head :: first, lexeme, later, rfl, ?_, ?_⟩
            · rw [placeAll, if_neg hne]
            · rw [hsource]
              exact ⟨htoken, hbehind⟩

theorem exists_of_mem_placeAll {offset : Nat} {lexemes : List Lexeme} {token : Token}
    (h : token ∈ placeAll offset lexemes) :
    ∃ lexeme ∈ lexemes, lexeme.source ≠ [] ∧ ∃ position, token = lexeme.place position := by
  induction lexemes generalizing offset with
  | nil => cases h
  | cons lexeme rest ih =>
      rw [placeAll] at h
      split at h
      next =>
        obtain ⟨found, hfound, hplaced⟩ := ih h
        exact ⟨found, List.mem_cons_of_mem _ hfound, hplaced⟩
      next hne =>
        rcases List.mem_cons.mp h with rfl | hrest
        · exact ⟨lexeme, List.mem_cons_self, by simpa using hne, offset, rfl⟩
        · obtain ⟨found, hfound, hplaced⟩ := ih hrest
          exact ⟨found, List.mem_cons_of_mem _ hfound, hplaced⟩

/-- Lexemes that are placed one after the other tile what they were read from. -/
theorem tile_placeAll (lexemes : List Lexeme) (offset : Nat) :
    Token.Tile offset (placeAll offset lexemes) (offset + (sourceOf lexemes).length) := by
  induction lexemes generalizing offset with
  | nil => exact .nil
  | cons lexeme rest ih =>
      rw [placeAll, sourceOf_cons, List.length_append, ← Nat.add_assoc]
      split
      next hempty =>
        rw [List.isEmpty_iff.mp hempty]
        exact ih offset
      next hne =>
        have hpos : 0 < lexeme.source.length :=
          List.length_pos_iff.mpr (fun hnil => hne (List.isEmpty_iff.mpr hnil))
        exact @Token.Tile.cons (lexeme.place offset) _ _ (Nat.lt_add_of_pos_right hpos) (ih _)

/-- The tokens of lexemes without escapes say what these were read from. -/
theorem flatMap_text_placeAll {lexemes : List Lexeme}
    (h : ∀ lexeme ∈ lexemes, lexeme.text = lexeme.source) (offset : Nat) :
    (placeAll offset lexemes).flatMap (·.text.toList) = sourceOf lexemes := by
  induction lexemes generalizing offset with
  | nil => simp [placeAll]
  | cons lexeme rest ih =>
      obtain ⟨hlexeme, hrest⟩ := List.forall_mem_cons.mp h
      rw [placeAll, sourceOf_cons]
      split
      next hempty => rw [ih hrest, List.isEmpty_iff.mp hempty, List.nil_append]
      next => rw [List.flatMap_cons, ih hrest, place, String.toList_ofList, hlexeme]

/-- A faithful lexeme reads the input at the place where it was found. -/
theorem IsFaithful.reads_place {lexeme : Lexeme} (h : lexeme.IsFaithful)
    (before after : List Char) :
    (lexeme.place before.length).Reads (before ++ (lexeme.source ++ after)) := by
  have hcut : (lexeme.place before.length).span.cut (before ++ (lexeme.source ++ after)) =
      lexeme.source := Span.cut_append before lexeme.source after
  rw [Token.Reads, hcut, place, String.toList_ofList]
  exact h

theorem reads_of_mem_placeAll {lexemes : List Lexeme}
    (hfaithful : ∀ lexeme ∈ lexemes, lexeme.IsFaithful) (before after : List Char) {token : Token}
    (hmem : token ∈ placeAll before.length lexemes) :
    token.Reads (before ++ (sourceOf lexemes ++ after)) := by
  induction lexemes generalizing before with
  | nil => cases hmem
  | cons lexeme rest ih =>
      rw [placeAll] at hmem
      rw [sourceOf_cons, List.append_assoc]
      have hrest : ∀ lexeme ∈ rest, lexeme.IsFaithful := fun lexeme hlexeme =>
        hfaithful lexeme (List.mem_cons_of_mem _ hlexeme)
      split at hmem
      next hempty =>
        rw [List.isEmpty_iff.mp hempty]
        exact ih hrest before hmem
      next =>
        rcases List.mem_cons.mp hmem with rfl | htail
        · exact (hfaithful lexeme List.mem_cons_self).reads_place before _
        · rw [← List.length_append] at htail
          rw [← List.append_assoc]
          exact ih hrest _ htail

end Lexeme

namespace Markup

/-- The characters that a list of fragments stands for. -/
def Fragment.sourceOf (fragments : List Fragment) : List Char := fragments.flatMap Fragment.source

theorem Fragment.sourceOf_append (first second : List Fragment) :
    sourceOf (first ++ second) = sourceOf first ++ sourceOf second := List.flatMap_append

theorem Fragment.sourceOf_flatMap_lexemes (fragments : List Fragment) :
    Lexeme.sourceOf (fragments.flatMap Fragment.lexemes) = sourceOf fragments := by
  induction fragments with
  | nil => rfl
  | cons fragment rest ih =>
      rw [List.flatMap_cons, Lexeme.sourceOf_append, Fragment.sourceOf_lexemes, ih]
      rfl

variable {lenient : Bool} {state next : State} {text rest : List Char}
  {emitted : List Fragment} {failure : Failure}

/-- A production emits exactly what it reads. -/
theorem Advance.text_eq (h : Advance lenient state text emitted next rest) :
    text = Fragment.sourceOf emitted ++ rest := by
  cases h <;> simp [Fragment.sourceOf, Fragment.source, Fragment.tagPunctuation,
    Fragment.subtreeBrace, Fragment.equals, Fragment.interpolationOpening,
    Fragment.interpolationClosing]

theorem Advance.sourceOf_ne_nil (h : Advance lenient state text emitted next rest) :
    Fragment.sourceOf emitted ≠ [] := by
  intro hnil
  have hlength := h.rest_length_lt
  rw [h.text_eq, hnil] at hlength
  exact Nat.lt_irrefl _ hlength

theorem Advance.emitted_ne_nil (h : Advance lenient state text emitted next rest) :
    emitted ≠ [] := by
  rintro rfl
  exact h.sourceOf_ne_nil rfl

theorem Trace.text_eq {fragments : List Fragment} {last : State} {unread : List Char}
    (h : Trace lenient state text fragments last unread) :
    text = Fragment.sourceOf fragments ++ unread := by
  induction h with
  | refl => rfl
  | step hstep _ ih => rw [Fragment.sourceOf_append, List.append_assoc, ← ih, ← hstep.text_eq]

/-- A refused text begins with what was emitted. -/
theorem Refusal.begins (h : Refusal lenient state text emitted failure) :
    Fragment.sourceOf emitted <+: text := by
  cases h with
  | @reserved depth name blanks rest =>
      exact ⟨rest, by simp [Fragment.sourceOf, Fragment.source]⟩
  | _ => exact List.nil_prefix

/-- What is unread where an error is noticed ends the text. -/
theorem Refusal.unread_suffix (h : Refusal lenient state text emitted failure) :
    failure.unread <:+ text := by
  cases h with
  | @closingTag depth blanks name rest => exact ⟨'<' :: (blanks ++ '/' :: name), by simp⟩
  | @tagName depth blanks rest => exact ⟨'<' :: blanks, rfl⟩
  | @tooDeep depth index text =>
      exact (List.drop_suffix index text).trans ⟨['{', '{'], rfl⟩
  | bareValue => exact List.suffix_append _ _
  | _ => exact List.suffix_rfl

/-- The fragments that the lexer emits. A piece that is one token is one of markup,
and an expression stands only inside other fragments. -/
def Fragment.IsMarkup : Fragment → Prop
  | .token kind _ =>
    kind ∈ [.comment, .tagName, .tagPunctuation, .subtreeBrace, .equals, .number, .literal]
  | .expression _ => False
  | _ => True

/-- Only an interpolation has tokens of that kind. -/
theorem Fragment.IsMarkup.eq_interpolation {fragment : Fragment} (h : fragment.IsMarkup)
    (hkinds : .interpolation ∈ fragment.kinds) : ∃ body, fragment = .interpolation body := by
  cases fragment with
  | token kind source =>
      obtain rfl : .interpolation = kind := List.mem_singleton.mp hkinds
      simp [IsMarkup] at h
  | interpolation body => exact ⟨body, rfl⟩
  | _ => simp [kinds, Expression.kinds, AttributeName.kinds] at hkinds

/-- Comments and the parts of tags that are no names of attributes are pieces of one token. -/
theorem Fragment.IsMarkup.eq_token {fragment : Fragment} (h : fragment.IsMarkup)
    {kind : Token.Kind}
    (hkind : kind ∈ [.comment, .tagName, .tagPunctuation, .subtreeBrace, .equals])
    (hkinds : kind ∈ fragment.kinds) : ∃ source, fragment = .token kind source := by
  cases fragment with
  | token other source => exact ⟨source, by rw [List.mem_singleton.mp hkinds]⟩
  | expression => exact h.elim
  | _ =>
      simp only [List.mem_cons, List.not_mem_nil, or_false] at hkind
      rcases hkind with rfl | rfl | rfl | rfl | rfl <;>
        simp [kinds, Expression.kinds, AttributeName.kinds] at hkinds

theorem Advance.isMarkup (h : Advance lenient state text emitted next rest) :
    ∀ fragment ∈ emitted, fragment.IsMarkup := by
  cases h with
  | @bareValue name depth value => cases value <;> simp [Fragment.IsMarkup, BareValue.kind]
  | _ => simp [Fragment.IsMarkup, Fragment.tagPunctuation, Fragment.subtreeBrace, Fragment.equals]

theorem Refusal.isMarkup (h : Refusal lenient state text emitted failure) :
    ∀ fragment ∈ emitted, fragment.IsMarkup := by
  cases h <;> simp [Fragment.IsMarkup]

/-- A run reads its fragments in order from the beginning of the text, and all of
it unless it is refused. -/
theorem run_sourceOf (lenient : Bool) (state : State) (text : List Char) :
    Fragment.sourceOf (run lenient state text).1 <+: text ∧
      ((run lenient state text).2 = none →
        Fragment.sourceOf (run lenient state text).1 = text) := by
  refine run_induction (motive := fun _ text fragments failure =>
    Fragment.sourceOf fragments <+: text ∧
      (failure = none → Fragment.sourceOf fragments = text)) ?_ ?_ ?_ state text
  · exact ⟨⟨[], rfl⟩, fun _ => rfl⟩
  · intro state text emitted failure hrefusal
    exact ⟨hrefusal.begins, nofun⟩
  · intro state text emitted next rest fragments failure hadvance ⟨hbegins, hall⟩
    rw [hadvance.text_eq, Fragment.sourceOf_append]
    refine ⟨(List.prefix_append_right_inj _).mpr hbegins, fun hnone => ?_⟩
    rw [hall hnone]

theorem run_isMarkup (lenient : Bool) (state : State) (text : List Char) :
    ∀ fragment ∈ (run lenient state text).1, fragment.IsMarkup :=
  forall_mem_run Refusal.isMarkup Advance.isMarkup state text

theorem Fragment.IsMarkup.text_notMem_kinds {fragment : Fragment} (h : fragment.IsMarkup)
    (htext : ∀ raw, fragment ≠ .text raw) : .text ∉ fragment.kinds := by
  cases fragment with
  | token kind source =>
      intro hkind
      obtain rfl : .text = kind := List.mem_singleton.mp hkind
      simp [IsMarkup] at h
  | text raw => exact absurd rfl (htext raw)
  | expression => exact h.elim
  | _ => simp [kinds, Expression.kinds, AttributeName.kinds]

/-- Outside of text, what a token says is what it was read from. -/
theorem Fragment.IsMarkup.exists_of_mem_lexemes {fragment : Fragment} (h : fragment.IsMarkup)
    (htext : ∀ raw, fragment ≠ .text raw) {lexeme : Lexeme} (hmem : lexeme ∈ fragment.lexemes) :
    ∃ kind source, kind ≠ .text ∧ lexeme = { kind, source } := by
  have hkind : lexeme.kind ≠ .text := by
    intro hkind
    have hmemKinds := kind_mem_kinds hmem
    rw [hkind] at hmemKinds
    exact h.text_notMem_kinds htext hmemKinds
  obtain ⟨kind, source, text⟩ := lexeme
  obtain rfl : text = source := text_eq_source_of_mem_lexemes htext hmem
  exact ⟨kind, text, hkind, rfl⟩

theorem Fragment.IsMarkup.isFaithful {fragment : Fragment} (h : fragment.IsMarkup)
    {lexeme : Lexeme} (hmem : lexeme ∈ fragment.lexemes) : lexeme.IsFaithful := by
  by_cases htext : ∃ raw, fragment = .text raw
  · obtain ⟨raw, rfl⟩ := htext
    exact Text.isFaithful_of_mem_lexemes hmem
  · obtain ⟨kind, source, hkind, rfl⟩ := h.exists_of_mem_lexemes (not_exists.mp htext) hmem
    exact Lexeme.isFaithful_mk hkind source

end Markup

/-- Lexemes that were read in order from the beginning of an input become tokens
that tile this beginning and read it. -/
theorem Lexeme.tile_of_begins {lexemes : List Lexeme} {input : List Char}
    (hbegins : sourceOf lexemes <+: input) (hfaithful : ∀ lexeme ∈ lexemes, lexeme.IsFaithful) :
    Token.Tile 0 (placeAll 0 lexemes) (sourceOf lexemes).length ∧
      ∀ token ∈ placeAll 0 lexemes, token.span.stop ≤ input.length ∧ token.Reads input := by
  obtain ⟨after, rfl⟩ := hbegins
  have htile := tile_placeAll lexemes 0
  rw [Nat.zero_add] at htile
  refine ⟨htile, fun token hmem => ⟨?_, ?_⟩⟩
  · have hstop := htile.stop_le hmem
    rw [List.length_append]
    omega
  · exact reads_of_mem_placeAll hfaithful [] after hmem

/-- The lexemes that are read from markup. -/
def markupLexemes (lenient : Bool) (input : List Char) : List Lexeme :=
  (Markup.run lenient (.content 0) input).1.flatMap Markup.Fragment.lexemes

theorem lex_markup (lenient : Bool) (input : String) :
    lex { lenient } input = lexMarkup lenient input.toList := rfl

theorem lexMarkup_tokens (lenient : Bool) (input : List Char) :
    (lexMarkup lenient input).tokens = Lexeme.placeAll 0 (markupLexemes lenient input) :=
  List.nil_append _

theorem lexMarkup_error (lenient : Bool) (input : List Char) :
    (lexMarkup lenient input).error =
      (Markup.run lenient (.content 0) input).2.map (·.toLexError input) := rfl

theorem lexMarkup_of_run {lenient : Bool} {input : List Char} {fragments : List Markup.Fragment}
    {failure : Option Markup.Failure}
    (h : Markup.run lenient (.content 0) input = (fragments, failure)) :
    lexMarkup lenient input =
      { tokens := Lexeme.placeAll 0 (fragments.flatMap Markup.Fragment.lexemes)
        error := failure.map (·.toLexError input) } := by
  rw [lexMarkup, h]
  rfl

/-- The position of an error tells what is unread there. -/
theorem Markup.Failure.toLexError_drop {input : List Char} {position : Nat}
    (h : position ≤ input.length) (cause : LexError.Cause) :
    toLexError input ⟨cause, input.drop position⟩ = ⟨cause, position⟩ := by
  rw [toLexError, List.length_drop, Nat.sub_sub_self h]

/-- An input that is refused with nothing emitted has the tokens of what was read before. -/
theorem Markup.Trace.lexMarkup_of_refusal {lenient : Bool} {input unread : List Char}
    {before : List Markup.Fragment} {state : Markup.State} {failure : Markup.Failure}
    (htrace : Markup.Trace lenient (.content 0) input before state unread)
    (hrefusal : Markup.Refusal lenient state unread [] failure) :
    lexMarkup lenient input =
      { tokens := (TokenStream.ofFragments before).tokens
        error := some (failure.toLexError input) } := by
  rw [lexMarkup, htrace.run_eq, Markup.run_of_refusal hrefusal, List.append_nil]
  rfl

theorem lexMarkup_of_runLexemes {lenient : Bool} {input : List Char} {lexemes : List Lexeme}
    {failure : Option Markup.Failure}
    (h : Markup.runLexemes lenient (.content 0) input = (lexemes, failure)) :
    lexMarkup lenient input =
      { tokens := Lexeme.placeAll 0 lexemes, error := failure.map (·.toLexError input) } := by
  obtain ⟨rfl, rfl⟩ := Prod.mk.inj h
  exact lexMarkup_of_run rfl

theorem lexMarkup_consumed (lenient : Bool) (input : List Char) :
    (lexMarkup lenient input).consumed =
      (Markup.Fragment.sourceOf (Markup.run lenient (.content 0) input).1).length := by
  have htile := Lexeme.tile_placeAll (markupLexemes lenient input) 0
  rw [← lexMarkup_tokens, Nat.zero_add] at htile
  rw [Lexed.consumed_eq htile, markupLexemes, Markup.Fragment.sourceOf_flatMap_lexemes]

theorem isFaithful_of_mem_markupLexemes {lenient : Bool} {input : List Char} {lexeme : Lexeme}
    (h : lexeme ∈ markupLexemes lenient input) : lexeme.IsFaithful := by
  obtain ⟨fragment, hfragment, hlexeme⟩ := List.mem_flatMap.mp h
  exact (Markup.run_isMarkup lenient _ input fragment hfragment).isFaithful hlexeme

/-- The tokens of an input tile a beginning of it, which is all of it if there is
no error, and each of them reads the input under its span. An expression has no
errors. -/
theorem lex_tiles (options : Options) (input : String) :
    Token.Tile 0 (lex options input).tokens (lex options input).consumed ∧
      (∀ token ∈ (lex options input).tokens,
        token.span.stop ≤ input.length ∧ token.Reads input.toList) ∧
      ((lex options input).isOk → (lex options input).consumed = input.length) ∧
      (options.grammar = .expression → (lex options input).isOk) := by
  rw [← String.length_toList]
  cases hgrammar : options.grammar with
  | markup =>
      obtain ⟨hbegins, hall⟩ := Markup.run_sourceOf options.lenient (.content 0) input.toList
      have hsource : Lexeme.sourceOf (markupLexemes options.lenient input.toList) =
          Markup.Fragment.sourceOf (Markup.run options.lenient (.content 0) input.toList).1 :=
        Markup.Fragment.sourceOf_flatMap_lexemes _
      rw [← hsource] at hbegins hall
      obtain ⟨htile, hreads⟩ := Lexeme.tile_of_begins hbegins
        fun _ => isFaithful_of_mem_markupLexemes
      have hlex : lex options input = lexMarkup options.lenient input.toList := by
        rw [lex, hgrammar]
      rw [← lexMarkup_tokens, ← hlex] at htile hreads
      rw [Lexed.consumed_eq htile]
      refine ⟨htile, hreads, fun hok => ?_, nofun⟩
      rw [hlex, Lexed.isOk, lexMarkup_error, Option.isNone_map, Option.isNone_iff_eq_none] at hok
      rw [hall hok]
  | expression =>
      have hsource := Expression.sourceOf_lexemes input.toList
      have hbegins : Lexeme.sourceOf (Expression.lexemes input.toList) <+: input.toList :=
        ⟨[], by rw [hsource, List.append_nil]⟩
      obtain ⟨htile, hreads⟩ := Lexeme.tile_of_begins hbegins
        fun _ => Expression.isFaithful_of_mem_lexemes
      have hlex : lex options input = { tokens := Expression.tokens input } := by
        rw [lex, hgrammar]
      have htokens : Lexeme.placeAll 0 (Expression.lexemes input.toList) =
          (lex options input).tokens := by rw [hlex, Expression.tokens]
      rw [htokens, hsource] at htile
      rw [htokens] at hreads
      rw [Lexed.consumed_eq htile]
      exact ⟨htile, hreads, fun _ => rfl, fun _ => by rw [hlex]; rfl⟩

end TemplateLexer
