import TemplateLexer.Proofs.Concatenation
import TemplateLexer.Proofs.TemplateParts

/-! # Quoted values behind the names of their attributes

In front of an equals sign stand the tokens of a name and blanks, and the token before the
name belongs to no name. Behind it stand blanks and a value. So the tokens in front of a
quoted value tell what its attribute is called.
-/

namespace TemplateLexer.Markup

open Sentence

variable {lenient : Bool} {state next : State} {text rest : List Char} {emitted : List Fragment}
  {failure : Failure}

/-- Only the name of an attribute is followed by an equals sign. -/
theorem Advance.eq_key_of_mem {source : List Char} (h : Advance lenient state text emitted next rest)
    (hmem : .token .equals source ∈ emitted) :
    ∃ depth name blanks, state = .tag depth ∧ next = .value name depth ∧ source = ['='] ∧
      emitted = [.attributeName name, .blanks blanks, .equals] ∧ name ≠ [] ∧
      ¬ Stops isNameChar text := by
  cases h with
  | @key depth name blanks rest hname hne hdigit hblanks =>
      refine ⟨depth, name, blanks, rfl, rfl, ?_, rfl, hne, ?_⟩
      · simpa [Fragment.equals] using hmem
      · obtain ⟨c, tail, rfl⟩ := List.exists_cons_of_ne_nil hne
        rw [List.cons_append, stops_cons, hname c List.mem_cons_self]
        decide
  | @bareValue name depth value => cases value <;> simp [BareValue.kind] at hmem
  | _ => simp [Fragment.tagPunctuation, Fragment.subtreeBrace] at hmem

theorem Refusal.equals_not_mem {source : List Char} (h : Refusal lenient state text emitted failure) :
    .token .equals source ∉ emitted := by
  cases h <;> simp

theorem not_mem_kinds_of_isBlank {kind : Token.Kind} (h : kind.isBlank) :
    kind ∉ AttributeName.kinds := by
  cases kind <;> first | decide | cases h

/-- Where a name begins in a tag, none ends. -/
theorem Advance.getLast?_kind_not_mem {depth : Nat}
    (h : Advance lenient state text emitted (.tag depth) rest) (hname : ¬ Stops isNameChar rest) :
    ∀ piece ∈ (Fragment.piecesOf emitted).getLast?, piece.1 ∉ AttributeName.kinds := by
  intro piece hpiece
  cases h with
  | @blank _ c _ hc =>
      have hblank := Fragment.piecesOf_blanks [c] piece (List.mem_of_getLast? hpiece)
      exact not_mem_kinds_of_isBlank hblank
  | openingTag hblanks hname' hne hrest hcomment => exact absurd hrest hname
  | subtreeEnd =>
      obtain rfl := Option.some.inj hpiece
      decide
  | @flag _ name blanks _ hallName hne hdigit hblanks hstop hrest hequals hreserved =>
      -- The name that begins behind the blanks is another one only if there are blanks.
      cases blanks with
      | nil => exact absurd hstop hname
      | cons c blanks =>
          have hne : Lexeme.piecesOf (Fragment.blanks (c :: blanks)).lexemes ≠ [] := by
            rw [Fragment.lexemes, List.map_cons, Lexeme.piecesOf_cons (List.cons_ne_nil c [])]
            exact List.cons_ne_nil _ _
          rw [Fragment.piecesOf_cons, Fragment.piecesOf_cons, Fragment.piecesOf_nil,
            List.append_nil, List.getLast?_append_of_ne_nil _ hne] at hpiece
          exact not_mem_kinds_of_isBlank
            (Fragment.piecesOf_blanks (c :: blanks) piece (List.mem_of_getLast? hpiece))
  | @quotedValue name _ contents _ hcontents =>
      have hlast : Fragment.piecesOf [.quotedValue contents name] =
          (quoteMark :: Lexeme.piecesOf (Fragment.contentsLexemes contents name)) ++
            [quoteMark] := by
        rw [Fragment.piecesOf_cons, Fragment.lexemes, Lexeme.piecesOf_append,
          Lexeme.piecesOf_cons (by decide), Fragment.piecesOf_nil, List.append_nil]
        rfl
      rw [hlast, List.getLast?_concat] at hpiece
      obtain rfl := Option.some.inj hpiece
      decide
  | @bareValue _ _ value source _ _ _ hcomplete _ =>
      rw [Fragment.piecesOf_cons, Fragment.piecesOf_token (BareValue.ne_nil_of_isComplete hcomplete)]
        at hpiece
      obtain rfl := Option.some.inj hpiece
      cases value <;> simp [BareValue.kind, AttributeName.kinds]

/-- Blanks are passed over before a token that is none. -/
theorem cons_eq_append_cons {head quote : Lexeme} {lexemes first later : List Lexeme}
    (h : head :: lexemes = first ++ quote :: later) (hfirst : Blanks (Lexeme.piecesOf first))
    (hhead : head.source ≠ []) :
    (head.kind.isBlank ∧ ∃ more, first = head :: more ∧ Blanks (Lexeme.piecesOf more) ∧
        lexemes = more ++ quote :: later) ∨
      (head = quote ∧ later = lexemes) := by
  cases first with
  | nil =>
      obtain ⟨rfl, rfl⟩ := List.cons.inj h
      exact .inr ⟨rfl, rfl⟩
  | cons other more =>
      obtain ⟨rfl, hmore⟩ := List.cons.inj h
      rw [Lexeme.piecesOf_cons hhead] at hfirst
      obtain ⟨hblank, hrest⟩ := List.forall_mem_cons.mp hfirst
      exact .inl ⟨hblank, more, rfl, hrest, hmore⟩

/-- A value comes behind blanks, and its first token tells what value it is. -/
theorem exists_of_run_value {name : List Char} {depth : Nat} {first later : List Lexeme}
    {quote : Lexeme} (hquote : (quote.kind, quote.text) = quoteMark)
    (hfirst : Blanks (Lexeme.piecesOf first))
    (h : (run lenient (.value name depth) text).1.flatMap Fragment.lexemes =
      first ++ quote :: later) :
    ∃ contents unread behind,
      QuotedValue.contentsLength? (contents ++ '"' :: unread) = some contents.length ∧
      quote = { kind := .string, source := ['"'] } ∧
      later = Fragment.contentsLexemes contents name ++
        { kind := .string, source := ['"'] } :: behind := by
  have hkind : quote.kind = .string := (Prod.mk.inj hquote).1
  refine run_induction (motive := fun state text fragments _ => ∀ first,
    state = .value name depth → Blanks (Lexeme.piecesOf first) →
    fragments.flatMap Fragment.lexemes = first ++ quote :: later →
    ∃ contents unread behind,
      QuotedValue.contentsLength? (contents ++ '"' :: unread) = some contents.length ∧
      quote = { kind := .string, source := ['"'] } ∧
      later = Fragment.contentsLexemes contents name ++
        { kind := .string, source := ['"'] } :: behind) ?_ ?_ ?_ _ text first rfl hfirst h
  · rintro first ⟨⟩
  · rintro state text emitted failure hrefusal first rfl hfirst hemitted
    cases hrefusal <;> simp at hemitted
  · rintro state text emitted next rest fragments failure hadvance ih first rfl hfirst hfragments
    rw [List.flatMap_append] at hfragments
    cases hadvance with
    | @blank _ c rest hc =>
        rcases cons_eq_append_cons hfragments hfirst (List.cons_ne_nil c []) with
          ⟨_, more, rfl, hmore, hlater⟩ | ⟨rfl, _⟩
        · exact ih more rfl hmore hlater
        · have hblank := isBlank_kind_blank c
          rw [hkind] at hblank
          cases hblank
    | @quotedValue _ _ contents unread hcontents =>
        have hsplit : [Fragment.quotedValue contents name].flatMap Fragment.lexemes ++
            fragments.flatMap Fragment.lexemes =
            { kind := .string, source := ['"'] } :: (Fragment.contentsLexemes contents name ++
              { kind := .string, source := ['"'] } :: fragments.flatMap Fragment.lexemes) := by
          simp [Fragment.lexemes]
        rw [hsplit] at hfragments
        rcases cons_eq_append_cons hfragments hfirst (List.cons_ne_nil _ _) with
          ⟨hblank, _⟩ | ⟨rfl, rfl⟩
        · cases hblank
        · exact ⟨contents, rest, _, hcontents, rfl, rfl⟩
    | subtree =>
        rcases cons_eq_append_cons hfragments hfirst (List.cons_ne_nil _ _) with
          ⟨hblank, _⟩ | ⟨rfl, _⟩
        · cases hblank
        · cases hkind
    | @bareValue _ _ value source rest _ _ hcomplete _ =>
        have hvalue : value.kind.isBlank = false ∧ value.kind ≠ .string := by
          cases value <;> simp [BareValue.kind, Token.Kind.isBlank]
        rcases cons_eq_append_cons hfragments hfirst (BareValue.ne_nil_of_isComplete hcomplete) with
          ⟨hblank, _⟩ | ⟨rfl, _⟩
        · rw [hvalue.1] at hblank
          cases hblank
        · exact absurd hkind hvalue.2
    | tagEnd hstate => simp at hstate

/-- The last token of a trace to the name of an attribute is not of that name. -/
theorem Trace.getLast?_kind_not_mem {fragments : List Fragment} {depth : Nat}
    (h : Trace lenient (.content 0) text fragments (.tag depth) rest)
    (hname : ¬ Stops isNameChar rest) :
    ∀ piece ∈ (Fragment.piecesOf fragments).getLast?, piece.1 ∉ AttributeName.kinds := by
  rcases h.eq_refl_or_exists_last with ⟨hstate, _⟩ | ⟨middle, between, first, emitted, _, hstep, rfl⟩
  · cases hstate
  · rw [Fragment.piecesOf_append, List.getLast?_append_of_ne_nil _ hstep.piecesOf_ne_nil]
    exact hstep.getLast?_kind_not_mem hname

/-- In front of a quoted value stand the tokens of the name of its attribute, and blanks. -/
theorem exists_quotedValue {first middle later : List Lexeme} {equals quote : Lexeme}
    (hequals : equals.kind = .equals) (hmiddle : Blanks (Lexeme.piecesOf middle))
    (hquote : (quote.kind, quote.text) = quoteMark)
    (h : (run lenient (.content 0) text).1.flatMap Fragment.lexemes =
      first ++ equals :: (middle ++ quote :: later)) :
    ∃ front name, ∃ blanks : List Char, ∃ contents unread behind,
      first = front ++ (AttributeName.lexemes name ++ blanks.map Lexeme.blank) ∧ name ≠ [] ∧
      (∀ piece ∈ (Lexeme.piecesOf front).getLast?, piece.1 ∉ AttributeName.kinds) ∧
      QuotedValue.contentsLength? (contents ++ '"' :: unread) = some contents.length ∧
      quote = { kind := .string, source := ['"'] } ∧
      later = Fragment.contentsLexemes contents name ++
        { kind := .string, source := ['"'] } :: behind := by
  obtain ⟨before, fragment, after, inner, outer, hrun, hfragment, rfl, hlater⟩ :=
    Fragment.exists_of_flatMap_lexemes h
  have hmarkup := run_isMarkup lenient (.content 0) text fragment (by rw [hrun]; simp)
  have hmem : equals ∈ fragment.lexemes := by rw [hfragment]; simp
  obtain ⟨source, rfl⟩ := hmarkup.eq_token (by decide) (hequals ▸ Fragment.kind_mem_kinds hmem)
  obtain ⟨rfl, rfl, rfl⟩ : inner = [] ∧ equals = { kind := .equals, source } ∧ outer = [] := by
    simpa [Fragment.lexemes, List.singleton_eq_append_iff] using hfragment
  obtain ⟨front, last, unread, emitted, inner, outer, htrace, rfl, hemitted, hends⟩ :=
    exists_of_run_eq hrun
  have hmem : .token .equals source ∈ emitted := by rw [hemitted]; simp
  rcases hends with ⟨next, rest, hadvance⟩ | ⟨failure, hrefusal⟩
  · obtain ⟨depth, name, blanks, rfl, rfl, rfl, rfl, hne, hname⟩ := hadvance.eq_key_of_mem hmem
    obtain rfl : inner = [.attributeName name, .blanks blanks] := by
      rcases inner with _ | ⟨_, _ | ⟨_, _ | ⟨_, _⟩⟩⟩ <;> simp_all
    -- Behind the sign the run goes on as one before the value of this attribute.
    have hvalue : (run lenient (.value name depth) rest).1 = after := by
      have hall := (htrace.trans (.single hadvance)).run_eq
      rw [hall] at hrun
      simpa [Fragment.equals] using hrun
    rw [← hvalue] at hlater
    obtain ⟨contents, unread, behind, hcontents, hopening, rfl⟩ :=
      exists_of_run_value hquote hmiddle hlater.symm
    refine ⟨front.flatMap Fragment.lexemes, name, blanks, contents, unread, behind, ?_, hne,
      htrace.getLast?_kind_not_mem hname, hcontents, hopening, rfl⟩
    simp [Fragment.lexemes]
  · exact absurd hmem hrefusal.equals_not_mem

end TemplateLexer.Markup
