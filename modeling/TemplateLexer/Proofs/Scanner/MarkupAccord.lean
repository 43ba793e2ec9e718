import TemplateLexer.Proofs.Scanner.ExpressionRun
import TemplateLexer.Proofs.Scanner.HeldText

/-! # Scanned markup

Each part of markup is scanned in accord with the productions of the lexer: the
scanner decides as they do, and writes or refuses what they do.
-/

namespace TemplateLexer.Scanner.Markup

open TemplateLexer.Markup Scan

variable {lenient : Bool} {input unread text rest : List Char} {depth : Nat}
  {nesting : Quote.Nesting} {stream : TokenStream}

/-- An interpolation is read from its opening brackets through its closing ones. -/
theorem interpolation_accords
    (h : Reached lenient input (.content depth) ('{' :: '{' :: text) stream) :
    Accords lenient input interpolation (facing input ('{' :: '{' :: text) {} nesting stream)
      fun _ => Stands lenient input (.content depth) fun rest => rest.length ≤ text.length := by
  have htext : text <:+ input := (List.suffix_append ['{', '{'] text).trans h.1
  have hinside : text.length < input.length := Nat.lt_of_succ_lt h.1.length_le
  have hbody := @runs_interpolationBody input text
    { start? := some (input.length - text.length) } {} stream
    (input.length - ('{' :: '{' :: text).length) htext hinside (Nat.zero_le _)
  refine .after runs_enter (.after runs_position ?_)
  refine .after (@runs_skip _ _ _ _ _ ['{', '{'] h.1 (by decide)) (.after runs_position ?_)
  refine .after (runs_setStart _) (.after runs_clearNesting ?_)
  cases hextent : Interpolation.extent text with
  | closed length =>
      rw [← Interpolation.extent, hextent] at hbody
      obtain ⟨last, hbody⟩ := hbody
      obtain ⟨body, rest, rfl, rfl⟩ := Interpolation.exists_append_of_extentFrom_eq_closed hextent
      have hadvance := h.advance (.interpolation hextent)
      have hrest : (body ++ '}' :: '}' :: rest).drop (body.length + 2) = rest := by
        rw [← List.drop_drop, List.drop_left]
        rfl
      rw [List.drop_left, hrest] at hbody
      refine .after hbody (.after (runs_cut htext) ?_)
      refine .after (runs_emit _) (.after (Expression.runs_embed body) ?_)
      refine .of_runs (runs_emit _) ⟨rest, last, _, rfl, ?_, ?_⟩
      · rw [← TokenStream.append_append, ← TokenStream.append_append]
        exact hadvance
      · simp only [List.length_append, List.length_cons]
        omega
  | tooDeep index =>
      rw [← Interpolation.extent, hextent] at hbody
      obtain ⟨last, rfl, hbody⟩ := hbody
      exact .of_refuses_bind hbody (h.refuse (.tooDeep hextent))
  | unclosed =>
      rw [← Interpolation.extent, hextent] at hbody
      obtain ⟨last, rfl, hbody⟩ := hbody
      exact .of_refuses_bind hbody (h.refuse (.interpolation hextent))

/-- A closing tag is read once its name is. -/
theorem closingTag_accords {blanks name : List Char} {name? : Option (List Char)}
    (hgiven : name?.getD [] = name) (hblanks : AllBlank blanks) (hname : AllName name)
    (hrest : Stops isNameChar rest)
    (h : Reached lenient input (.content depth) ('<' :: (blanks ++ '/' :: (name ++ rest))) stream) :
    Accords lenient input (closingTag blanks name?) (facing input rest {} nesting stream)
      fun _ => Stands lenient input (.content depth) fun after =>
        after.length ≤ (blanks ++ '/' :: (name ++ rest)).length := by
  have hunread : rest <:+ input := by
    refine List.IsSuffix.trans ⟨'<' :: (blanks ++ '/' :: name), ?_⟩ h.1
    simp
  refine .after (runs_peek? hunread) ?_
  by_cases hend : rest.head? = some '>'
  · obtain ⟨after, rfl⟩ := List.head?_eq_some_iff.mp hend
    have hadvance := h.advance (.closingTag hblanks hname)
    refine .after (runs_next? hunread).discard ?_
    refine .after (runs_emit _) (.after (runs_emit _) (.after (runs_emit _) ?_))
    rw [hgiven]
    refine .after (runs_emit _) (.of_runs (runs_emit _) ?_)
    refine ⟨after, nesting, _, rfl, hadvance, ?_⟩
    simp only [List.length_append, List.length_cons]
    omega
  · rw [if_neg (by simpa using hend)]
    refine .after runs_position (.of_refuses (runs_refuse _ _ _) ?_)
    exact h.refuse (.closingTag hblanks hname hrest hend)

/-- The bracket at the end of a tag is read where nothing else may stand. -/
theorem angleBracket_accords {state : State} (hstate : state = .tag depth ∨ state = .tagEnd depth)
    (h : Reached lenient input state unread stream)
    (hrefusal : ∀ blanks after, unread = blanks ++ after → AllBlank blanks → Stops isBlank after →
      after.head? ≠ some '>' → Refusal lenient state after [] ⟨.unterminatedTag, after⟩) :
    Accords lenient input angleBracket (facing input unread {} nesting stream)
      fun _ => Stands lenient input (.content depth) fun rest => rest.length ≤ unread.length := by
  obtain ⟨blanks, after, rfl, hblanks, hafter⟩ := exists_maximalRun isBlank unread
  have hreached := h.blanks hblanks
  refine .after (runs_takeBlanks h.1 hblanks hafter) (.after (runs_emit _) ?_)
  refine .after (runs_peek? hreached.1) ?_
  by_cases hend : after.head? = some '>'
  · obtain ⟨rest, rfl⟩ := List.head?_eq_some_iff.mp hend
    refine .after (runs_next? hreached.1).discard (.of_runs (runs_emit _) ?_)
    refine ⟨rest, nesting, _, rfl, hreached.advance (.tagEnd hstate), ?_⟩
    simp only [List.length_append, List.length_cons]
    omega
  · rw [if_neg (by simpa using hend)]
    refine .after runs_position (.of_refuses (runs_refuse _ _ _) ?_)
    exact hreached.refuse (hrefusal blanks after rfl hblanks hafter hend)

/-- What attributes end before: neither a blank nor another attribute. -/
def EndsAttributes (text : List Char) : Prop :=
  Stops isBlank text ∧ Stops isNameChar text ∧ text.head? ≠ some '"'

/-- Where attributes end, only the end of the tag may stand. -/
theorem EndsAttributes.refusal (hends : EndsAttributes text) (hslash : text.head? ≠ some '/')
    (hend : text.head? ≠ some '>') :
    Refusal lenient (.tag depth) text [] ⟨.unterminatedTag, text⟩ := by
  obtain ⟨hblank, hname, hquote⟩ := hends
  cases text with
  | nil => exact .endInTag (.inl rfl)
  | cons c rest =>
      refine .tag (stops_cons.mp hblank) (stops_cons.mp hname) ?_
      simp only [List.head?_cons, ne_eq, Option.some.injEq] at hquote hslash hend
      simp [hquote, hslash, hend]

theorem tagEnd_accords (h : Reached lenient input (.tag depth) unread stream)
    (hends : EndsAttributes unread) :
    Accords lenient input tagEnd (facing input unread {} nesting stream)
      fun _ => Stands lenient input (.content depth) fun rest => rest.length ≤ unread.length := by
  by_cases hslash : unread.head? = some '/'
  · obtain ⟨rest, rfl⟩ := List.head?_eq_some_iff.mp hslash
    refine .after (runs_trySlash h.1) (.after (runs_emit _) ?_)
    have hrefusal : ∀ blanks after, rest = blanks ++ after → AllBlank blanks →
        Stops isBlank after → after.head? ≠ some '>' →
        Refusal lenient (.tagEnd depth) after [] ⟨.unterminatedTag, after⟩ := by
      intro blanks after _ _ hafter hend
      cases after with
      | nil => exact .endInTag (.inr rfl)
      | cons c tail => exact .tagEnd (stops_cons.mp hafter) (by simpa using hend)
    have hbracket := @angleBracket_accords lenient input rest depth nesting _ _ (.inr rfl)
      (h.advance .slash) hrefusal
    exact hbracket.relax fun _ _ => Nat.le_succ_of_le
  · refine .after (runs_trySlash_of_ne h.1 hslash) ?_
    apply angleBracket_accords (.inl rfl) h
    -- Attributes end before no blank, so none stands in front of the bracket.
    rintro blanks after rfl hblanks _ hend
    cases blanks with
    | nil => exact hends.refusal hslash hend
    | cons c tail =>
        have hc : isBlank c = false := stops_cons.mp hends.1
        rw [hblanks c List.mem_cons_self] at hc
        cases hc

section Values

variable {name : List Char}

theorem runs_writeContents (contents name : List Char) :
    Runs (writeContents contents name) (facing input unread {} nesting stream) (.ok ())
      (facing input unread {} nesting
        (stream.append (Fragment.contentsLexemes contents name))) := by
  unfold writeContents Fragment.contentsLexemes
  split
  · exact Expression.runs_embed contents
  · exact runs_emit _

/-- A quoted value is read through the quote that ends it. -/
theorem quotedValue_accords (h : Reached lenient input (.value name depth) ('"' :: text) stream) :
    Accords lenient input (quotedValue name) (facing input ('"' :: text) {} nesting stream)
      fun _ => Stands lenient input (.tag depth) fun rest => rest.length ≤ text.length := by
  have htext : text <:+ input := (List.suffix_cons _ _).trans h.1
  have hcontents := contentsAfter?_eq none text nofun
  refine .after runs_position (.after (runs_next? h.1).discard ?_)
  refine .after runs_position (.after (runs_setStart _) ?_)
  cases hlength : QuotedValue.contentsLength? text with
  | none =>
      rw [hlength] at hcontents
      exact .of_refuses_bind (runs_quotedTail_none htext hcontents)
        (h.refuse (.quotedValue hlength))
  | some length =>
      rw [hlength] at hcontents
      obtain ⟨contents, rest, rfl, rfl⟩ := QuotedValue.exists_append_of_contentsLength? hlength
      have hquote : '"' :: rest <:+ input := (List.suffix_append _ _).trans htext
      have hrest : (contents ++ '"' :: rest).drop (contents.length + 1) = rest := by
        rw [← List.drop_drop, List.drop_left]
        rfl
      have htail := @runs_quotedTail input _
        { start? := some (input.length - (contents ++ '"' :: rest).length) } nesting stream
        (input.length - ('"' :: (contents ++ '"' :: rest)).length) _ none htext hcontents
      rw [hrest] at htail
      refine .after htail (.after (runs_previousPosition hquote) ?_)
      have hstop : 0 < input.length - ('"' :: rest).length :=
        @position_pos _ _ ('"' :: contents) h.1 (List.cons_ne_nil _ _)
      refine .after (runs_setStop hstop) (.after (runs_cut htext) ?_)
      refine .after (runs_emit _) (.after (runs_writeContents contents name) ?_)
      refine .of_runs (runs_emit _) ⟨rest, nesting, _, rfl, ?_, ?_⟩
      · rw [← TokenStream.append_append, ← TokenStream.append_append]
        exact h.advance (.quotedValue hlength)
      · simp only [List.length_append, List.length_cons]
        omega

/-- A bare value is its extent in the text before it. -/
theorem exists_bareValue {value : BareValue} (text : List Char) :
    ∃ source rest, text = source ++ rest ∧ value.extent text = source.length :=
  ⟨text.take (value.extent text), text.drop (value.extent text),
    (List.take_append_drop _ _).symm,
    (List.length_take_of_le (BareValue.extent_le value text)).symm⟩

theorem truthValue_accords (truth : Bool)
    (hfirst : unread.head?.bind BareValue.ofFirst? = some (.boolean truth))
    (h : Reached lenient input (.value name depth) unread stream) :
    Accords lenient input (truthValue truth) (facing input unread {} nesting stream)
      fun _ => Stands lenient input (.tag depth) fun rest => rest.length ≤ unread.length := by
  obtain ⟨source, rest, rfl, hextent⟩ := @exists_bareValue (.boolean truth) unread
  have hrest : rest <:+ input := (List.suffix_append _ _).trans h.1
  have hspell := @runs_spellWord input (source ++ rest) {} nesting stream
    (BareValue.boolean truth).malformed (BareValue.word truth) h.1
  have hspelled : BareValue.spelled (BareValue.word truth) (source ++ rest) = source.length :=
    hextent
  rw [hspelled, List.drop_left] at hspell
  refine .after runs_position ?_
  split at hspell
  next hcomplete =>
    have hsource : (BareValue.boolean truth).isComplete source := beq_iff_eq.mpr hcomplete
    refine .after hspell (.after (runs_atBoundary hrest) ?_)
    split
    next hboundary =>
      have hne := BareValue.ne_nil_of_isComplete hsource
      have hhead : source.head?.bind BareValue.ofFirst? = some (.boolean truth) := by
        rwa [List.head?_append_of_ne_nil _ hne] at hfirst
      refine .after runs_position (.after (runs_slice h.1) ?_)
      refine .of_runs (runs_emit _) ⟨rest, nesting, _, rfl, ?_, by simp⟩
      exact h.advance (.bareValue hhead hextent hsource hboundary)
    next hboundary =>
      refine .after runs_position (.of_refuses (runs_refuse _ _ _) ?_)
      exact h.refuse (.bareValue hfirst hextent (by simp [hboundary]))
  next hincomplete =>
    have hsource : (BareValue.boolean truth).isComplete source = false :=
      beq_eq_false_iff_ne.mpr hincomplete
    exact .of_refuses_bind hspell (h.refuse (.bareValue hfirst hextent (by simp [hsource])))

/-- What follows the sign of a number decides whether it is one. -/
theorem unsignedValue_accords {sign : List Char} (hsign : sign.any Char.isDigit = false)
    (hfirst : (sign ++ unread).head?.bind BareValue.ofFirst? = some .number)
    (hextent : BareValue.number.extent (sign ++ unread) =
      sign.length + BareValue.unsignedLength unread)
    (h : Reached lenient input (.value name depth) (sign ++ unread) stream) :
    Accords lenient input unsignedValue
      (facing input unread { start? := some (input.length - (sign ++ unread).length) } nesting
        stream)
      fun _ => Stands lenient input (.tag depth) fun rest => rest.length ≤ unread.length := by
  have hunread : unread <:+ input := (List.suffix_append _ _).trans h.1
  have htail := @runs_numberTail input unread
    { start? := some (input.length - (sign ++ unread).length) } nesting stream hunread
  obtain ⟨digits, rest, hsplit, hlength⟩ : ∃ digits rest, unread = digits ++ rest ∧
      BareValue.unsignedLength unread = digits.length :=
    ⟨_, _, (List.take_append_drop (BareValue.unsignedLength unread) _).symm,
      (List.length_take_of_le (BareValue.unsignedLength_le _)).symm⟩
  rw [hlength] at htail hextent
  subst hsplit
  rw [List.drop_left, List.take_left] at htail
  rw [← List.append_assoc] at hfirst hextent h ⊢
  rw [← List.length_append] at hextent
  have hrest : rest <:+ input := (List.suffix_append _ _).trans hunread
  -- The sign is no digit, so the digits alone decide whether the value is complete.
  have hcomplete : BareValue.number.isComplete (sign ++ digits) = digits.any Char.isDigit := by
    rw [BareValue.isComplete, List.any_append, hsign, Bool.false_or]
  rw [← List.append_assoc] at htail
  split at htail
  next hpoint =>
    have hboundary : BareValue.atBoundary rest = false := by
      obtain ⟨more, rfl⟩ := List.head?_eq_some_iff.mp hpoint
      rfl
    exact .of_refuses_bind htail (h.refuse (.bareValue hfirst hextent (by simp [hboundary])))
  next =>
    refine .after htail (.after (runs_atBoundary hrest) ?_)
    rw [← hcomplete]
    split
    next haccepted =>
      obtain ⟨hsource, hboundary⟩ := Bool.and_eq_true_iff.mp haccepted
      have hne := BareValue.ne_nil_of_isComplete hsource
      have hhead : (sign ++ digits).head?.bind BareValue.ofFirst? = some .number := by
        rwa [List.head?_append_of_ne_nil _ hne] at hfirst
      refine .after runs_position (.after (runs_setStop (position_pos h.1 hne)) ?_)
      refine .after (runs_cut h.1) (.of_runs (runs_emit _) ⟨rest, nesting, _, rfl, ?_, by simp⟩)
      exact h.advance (.bareValue hhead hextent hsource hboundary)
    next hrefused =>
      refine .after runs_position (.of_refuses (runs_refuse _ _ _) ?_)
      exact h.refuse (.bareValue hfirst hextent (Bool.eq_false_iff.mpr hrefused))

theorem numberValue_accords (hfirst : unread.head?.bind BareValue.ofFirst? = some .number)
    (h : Reached lenient input (.value name depth) unread stream) :
    Accords lenient input numberValue (facing input unread {} nesting stream)
      fun _ => Stands lenient input (.tag depth) fun rest => rest.length ≤ unread.length := by
  refine .after runs_position (.after (runs_setStart _) (.after (runs_peek? h.1) ?_))
  by_cases hsign : unread.head? = some '-'
  · obtain ⟨rest, rfl⟩ := List.head?_eq_some_iff.mp hsign
    refine .after (runs_next? h.1).discard ?_
    have hextent : BareValue.number.extent ('-' :: rest) = 1 + BareValue.unsignedLength rest :=
      Nat.add_comm _ _
    have hunsigned := @unsignedValue_accords _ _ _ _ nesting _ _ ['-'] rfl hfirst hextent h
    exact hunsigned.relax fun _ _ => Nat.le_succ_of_le
  · rw [if_neg (by simpa using hsign)]
    have hextent : BareValue.number.extent unread = 0 + BareValue.unsignedLength unread := by
      rw [Nat.zero_add, BareValue.extent_number_of_head?_ne hsign]
    exact @unsignedValue_accords _ _ _ _ _ _ _ [] rfl hfirst hextent h

end Values

end TemplateLexer.Scanner.Markup
