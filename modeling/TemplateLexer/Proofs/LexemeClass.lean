import TemplateLexer.Proofs.ExpressionRules
import TemplateLexer.Proofs.TemplateParts
import TemplateLexer.Proofs.Tiling

/-! # What tokens say

A token says something that its kind admits, in every input and up to every error. For
expressions this is a case for each rule. For markup it is a case for each production, which
emits well-formed fragments, and one for each way in which a fragment is split.
-/

namespace TemplateLexer

namespace Expression

/-- How the operators are written. -/
def operatorSpellings : List (List Char) :=
  ["||", "&&", "??", "==", "..", "<=", ">=", "!=", "~^", "~_", "~#", "~!", "~-", "~?", "~|", "~<",
    "+", "-", "*", "/", "%", "^", "&", "?", ":", "@", "<", ">", "!"].map String.toList

/-- How the literals are written that an expression knows. -/
def literalSpellings : List (List Char) := ["true", "false", "null"].map String.toList

/-- How the punctuation is written. -/
def markSpellings : List (List Char) := ["[", "]", "(", ")", ".", ","].map String.toList

/-- A letter and the letters and underscores behind it. -/
def IsWord (source : List Char) : Prop :=
  ∃ c run, source = c :: run ∧ c.isAlpha ∧ ∀ d ∈ run, d.isAlpha ∨ d = '_'

/-- How a string is written. Only the end of its expression ends a string that has no other end. -/
inductive IsString : List Char → Prop where
  | closed {quote : Char} {inside : List Char} (hquote : quote = '\'' ∨ quote = '"')
      (hinside : Inside quote inside) : IsString (quote :: (inside ++ [quote]))
  | unclosed {quote : Char} {text : List Char} (hquote : quote = '\'' ∨ quote = '"')
      (htext : Unclosed quote text) : IsString (quote :: text)

end Expression

open Markup

/-- What a token of a kind can say. -/
def Admits : Token.Kind → List Char → Prop
  | .whitespace, text => ∃ c, text = [c] ∧ isBlank c ∧ c ≠ '\t'
  | .tab, text => text = ['\t']
  | .text, text => text ≠ [] ∧ (∀ c ∈ text, isBlank c = false) ∧ ¬ ['{', '{'] <:+: text
  | .comment, text => ∃ blanks, AllBlank blanks ∧ ∃ body : Template.CommentBody,
      text = '<' :: (blanks ++ (['!', '-', '-'] ++ (body.text ++ ['-', '-', '>'])))
  | .tagName, text | .attributeName, text | .bindingName, text => text ≠ [] ∧ AllName text
  | .tagPunctuation, text => text ∈ [['<'], ['>'], ['/']]
  | .interpolation, text => text ∈ [['{', '{'], ['}', '}']]
  | .subtreeBrace, text => text ∈ [['{'], ['}']]
  | .equals, text => text = ['=']
  | .directivePunctuation, text => text ∈ [['*'], ['['], [']'], ['-']]
  | .directiveKeyword, text => text ∈ [['f', 'o', 'r'], ['l', 'e', 't']]
  | .string, text => Expression.IsString text ∨
      text ≠ [] ∧ ∃ quoted : Template.Quoted, text = quoted.contents
  | .number, text => ∃ numeral : Template.Numeral, text = numeral.print
  | .literal, text => text = ['n', 'u', 'l', 'l'] ∨
      text.map Char.toLower ∈ [['t', 'r', 'u', 'e'], ['f', 'a', 'l', 's', 'e']]
  | .identifier, text =>
      Expression.IsWord text ∧ ∀ literal ∈ Expression.literalSpellings, ¬ literal <+: text
  | .operator, text => text ∈ Expression.operatorSpellings
  | .punctuation, text => text ∈ Expression.markSpellings
  | .plain, text => ∃ c, text = [c] ∧ isBlank c = false ∧ c ∉ ['\'', '"'] ∧
      c.isAlphanum = false ∧ text ∉ Expression.operatorSpellings ∧ text ∉ Expression.markSpellings

theorem admits_blank {c : Char} (hc : isBlank c) :
    Admits (Lexeme.blank c).kind [c] := by
  by_cases htab : c = '\t'
  · subst htab
    rfl
  · have hkind : (Lexeme.blank c).kind = .whitespace := if_neg (by simpa using htab)
    rw [hkind]
    exact ⟨c, rfl, hc, htab⟩

namespace Expression

theorem mem_operatorSpellings_of_pair {first second : Char} (h : isOperatorPair first second) :
    [first, second] ∈ operatorSpellings := by
  have hdoubled : doubledOperators.all fun c => operatorSpellings.contains [c, c] := by decide
  have hcomparison : comparisons.all fun c => operatorSpellings.contains [c, '='] := by decide
  have htilde : tildeFollowers.all fun c => operatorSpellings.contains ['~', c] := by decide
  simp only [List.all_eq_true, List.contains_iff_mem] at hdoubled hcomparison htilde
  simp only [isOperatorPair, Bool.or_eq_true, Bool.and_eq_true, List.contains_iff_mem,
    beq_iff_eq] at h
  rcases h with (⟨hfirst, rfl⟩ | ⟨hfirst, rfl⟩) | ⟨rfl, hsecond⟩
  · exact hdoubled second hfirst
  · exact hcomparison first hfirst
  · exact htilde second hsecond

theorem singleton_mem_operatorSpellings {c : Char} : [c] ∈ operatorSpellings ↔ c ∈ operators := by
  constructor
  · intro hmem
    have hall : operatorSpellings.all fun spelling =>
        spelling.length != 1 || operators.contains (spelling.getD 0 ' ') := by decide
    simpa using List.all_eq_true.mp hall _ hmem
  · intro hmem
    have hall : operators.all fun c => operatorSpellings.contains [c] := by decide
    exact List.contains_iff_mem.mp (List.all_eq_true.mp hall c hmem)

theorem mem_literalSpellings {source : List Char} :
    source ∈ literalSpellings ↔ source ∈ keywords := Iff.rfl

theorem mem_markSpellings {source : List Char} :
    source ∈ markSpellings ↔ ∃ c ∈ punctuation, source = [c] := by
  have hmarks : markSpellings = punctuation.map fun c => [c] := rfl
  simp only [hmarks, List.mem_map, eq_comm]

theorem isIdentifierChar_iff {c : Char} : isIdentifierChar c ↔ c.isAlpha ∨ c = '_' := by
  rw [isIdentifierChar, Bool.or_eq_true, beq_iff_eq]

/-- A number has a sign or none. -/
theorem exists_print_eq_append {sign : List Char} (hsign : sign ∈ signs)
    (numeral : Template.Numeral) :
    ∃ signed : Template.Numeral, sign ++ numeral.unsigned = signed.print := by
  simp only [signs, List.mem_cons, List.not_mem_nil, or_false] at hsign
  rcases hsign with rfl | rfl
  · exact ⟨{ numeral with negative := false }, rfl⟩
  · exact ⟨{ numeral with negative := true }, rfl⟩

/-- A rule reads what the kind of its lexeme admits. -/
theorem Rule.admits {kind : Token.Kind} {source rest : List Char} (h : Rule kind source rest) :
    Admits kind source := by
  cases h with
  | tab => rfl
  | blank hc htab => exact ⟨_, rfl, hc, htab⟩
  | string hquote hinside => exact .inl (.closed (eq_of_ofChar?_isSome hquote) hinside)
  | unclosedString hquote htext => exact .inl (.unclosed (eq_of_ofChar?_isSome hquote) htext)
  | keyword hkeyword =>
      simp only [keywords, List.mem_cons, List.not_mem_nil, or_false] at hkeyword
      rcases hkeyword with rfl | rfl | rfl
      · exact .inr (by decide)
      · exact .inr (by decide)
      · exact .inl rfl
  | @identifier c run _ hc hkeyword hrun hrest =>
      refine ⟨⟨c, run, rfl, hc, fun d hd => isIdentifierChar_iff.mp (hrun d hd)⟩, ?_⟩
      intro keyword hmem hbegins
      exact hkeyword keyword (mem_literalSpellings.mp hmem)
        (hbegins.trans (List.prefix_append (c :: run) rest))
  | @integer sign whole _ hsign hne hwhole hrest hrange =>
      exact exists_print_eq_append hsign ⟨false, whole, none, hwhole, by simp, .inl hne⟩
  | @decimal sign whole digits _ hsign hne hwhole hdigits hrest hrange =>
      exact exists_print_eq_append hsign
        ⟨false, whole, some digits, hwhole, by simpa using hdigits, .inl hne⟩
  | @fraction digits _ hne hdigits hrest =>
      exact ⟨⟨false, [], some digits, by simp, by simpa using hdigits, .inr ⟨digits, rfl, hne⟩⟩, rfl⟩
  | pair hpair => exact mem_operatorSpellings_of_pair hpair
  | operator hc halone => exact singleton_mem_operatorSpellings.mpr hc
  | punctuation hc halone => exact mem_markSpellings.mpr ⟨_, hc, rfl⟩
  | @plain c _ hc hoperator hpunctuation halone =>
      have hquote : c ∉ ['\'', '"'] := by
        intro hmem
        have hnone := hc.quote
        simp only [List.mem_cons, List.not_mem_nil, or_false] at hmem
        rcases hmem with rfl | rfl <;> exact absurd hnone (by decide)
      have hdigit : c.isDigit = false := by
        have hnumber := halone.number
        rw [startsNumber, Bool.or_eq_false_iff] at hnumber
        exact hnumber.1
      have halphanum : c.isAlphanum = false := Bool.or_eq_false_iff.mpr ⟨hc.letter, hdigit⟩
      have hmark : [c] ∉ markSpellings := by
        rw [mem_markSpellings]
        rintro ⟨d, hd, hsame⟩
        cases hsame
        exact hpunctuation hd
      exact ⟨c, rfl, hc.blank, hquote, halphanum, mt singleton_mem_operatorSpellings.mp hoperator,
        hmark⟩

theorem admits_of_mem_lexemes (text : List Char) :
    ∀ lexeme ∈ lexemes text, Admits lexeme.kind lexeme.text := by
  refine lexemes_induction (motive := fun _ lexemes =>
    ∀ lexeme ∈ lexemes, Admits lexeme.kind lexeme.text) ?_ ?_ text
  · simp
  · intro kind source rest hrule hrest
    exact List.forall_mem_cons.mpr ⟨hrule.admits, hrest⟩

end Expression

namespace Markup

theorem AllName.of_isSuffix {name rest : List Char} (h : AllName name) (hrest : rest <:+ name) :
    AllName rest := fun c hc => h c (hrest.subset hc)

namespace AttributeName

theorem admits_of_mem_splitMarker {marker : List Char} (hmarker : marker ∈ [forMarker, letMarker])
    (name : List Char) :
    ∀ lexeme ∈ (splitMarker marker name).1, Admits lexeme.kind lexeme.text := by
  have hkeywords : ∀ marker ∈ [forMarker, letMarker],
      marker.dropLast ∈ [['f', 'o', 'r'], ['l', 'e', 't']] := by decide
  unfold splitMarker
  split
  · have hkeyword : Admits .directiveKeyword marker.dropLast := hkeywords marker hmarker
    have hhyphen : Admits .directivePunctuation ['-'] := by simp [Admits]
    simpa [punctuation, hhyphen] using hkeyword
  · simp

theorem admits_of_mem_splitStructural (name : List Char) :
    ∀ lexeme ∈ (splitStructural name).1, Admits lexeme.kind lexeme.text := by
  unfold splitStructural
  split
  next rest =>
    have hasterisk : Admits .directivePunctuation ['*'] := by simp [Admits]
    exact List.forall_mem_cons.mpr
      ⟨hasterisk, admits_of_mem_splitMarker List.mem_cons_self rest⟩
  next => simp

/-- What the name of an attribute is split into. -/
theorem admits_of_mem_lexemes {name : List Char} (hname : AllName name) :
    ∀ lexeme ∈ lexemes name, lexeme.source ≠ [] → Admits lexeme.kind lexeme.text := by
  intro lexeme hmem hne
  unfold lexemes at hmem
  split at hmem
  next hbinding =>
    simp only [List.mem_cons, List.not_mem_nil, or_false] at hmem
    rcases hmem with rfl | rfl | rfl
    · simp [Admits, punctuation]
    · refine ⟨hne, fun c hc => hname c ?_⟩
      exact List.mem_of_mem_drop ((List.dropLast_sublist _).subset hc)
    · simp [Admits, punctuation]
  next =>
    have hstructural := sourceOf_splitStructural name
    have hdeclaration := sourceOf_splitMarker letMarker rfl (splitStructural name).2
    simp only [List.mem_append, List.mem_singleton] at hmem
    rcases hmem with (hmem | hmem) | rfl
    · exact admits_of_mem_splitStructural name lexeme hmem
    · exact admits_of_mem_splitMarker (by simp) _ lexeme hmem
    · have hname' : AllName (splitStructural name).2 := hname.of_isSuffix ⟨_, hstructural⟩
      exact ⟨hne, hname'.of_isSuffix ⟨_, hdeclaration⟩⟩

end AttributeName

namespace Text

/-- An escape that is removed makes no opening brackets of the characters around it. -/
theorem noOpening_unescape {closes : Bool} {word rest : List Char}
    (h : wordLength closes (word ++ rest) = word.length) :
    ¬ ['{', '{'] <:+: unescape word ∧ ((unescape word).head? = some '{' → word.head? = some '{') := by
  refine word_induction (motive := fun word => ¬ ['{', '{'] <:+: unescape word ∧
    ((unescape word).head? = some '{' → word.head? = some '{')) ?_ ?_ ?_ h
  · exact ⟨by simp [unescape], id⟩
  · rintro c tail hescapable ⟨htail, _⟩
    have hc : '{' ≠ c := by
      rintro rfl
      exact absurd hescapable (by decide)
    rw [unescape_escaped hescapable, List.infix_cons_iff, List.cons_prefix_cons]
    simp [hc, hc.symm, htail]
  · rintro c tail hends hbackslash ⟨htail, hhead⟩
    rw [unescape_cons_of_append hbackslash]
    refine ⟨?_, id⟩
    rw [List.infix_cons_iff, List.cons_prefix_cons]
    rintro (⟨rfl, hopens⟩ | hinside)
    · obtain ⟨more, hmore⟩ := hopens
      obtain ⟨after, rfl⟩ := List.head?_eq_some_iff.mp (hhead (by rw [← hmore]; rfl))
      simp [endsWord] at hends
    · exact htail hinside

theorem unescape_sublist (text : List Char) : (unescape text).Sublist text := by
  fun_induction unescape text with
  | case1 => exact List.Sublist.refl _
  | case2 c => exact List.Sublist.refl _
  | case3 c next rest _ ih => exact (ih.cons_cons next).cons c
  | case4 c next rest _ ih => exact ih.cons_cons c

theorem isBlank_of_mem_unescape {closes : Bool} {word rest : List Char}
    (h : wordLength closes (word ++ rest) = word.length) :
    ∀ c ∈ unescape word, isBlank c = false := fun c hc =>
  isBlank_of_mem_word h c ((unescape_sublist word).subset hc)

/-- The text of a word. -/
theorem admits_unescape {closes : Bool} {word rest : List Char} (hne : word ≠ [])
    (h : wordLength closes (word ++ rest) = word.length) : Admits .text (unescape word) := by
  refine ⟨unescape_ne_nil hne, isBlank_of_mem_unescape h, (noOpening_unescape h).1⟩

end Text

namespace Fragment

/-- The conditions under which a fragment is split into lexemes of their kinds. -/
def IsWellFormed : Fragment → Prop
  | .token kind source => source ≠ [] → Admits kind source
  | .blanks run => AllBlank run
  | .text raw => ∀ lexeme ∈ Text.lexemes raw, Admits lexeme.kind lexeme.text
  | .expression _ | .interpolation _ => True
  | .attributeName name => AllName name
  | .quotedValue contents _ => ∃ quoted : Template.Quoted, contents = quoted.contents

theorem IsWellFormed.admits {fragment : Fragment} (h : fragment.IsWellFormed) :
    ∀ lexeme ∈ fragment.lexemes, lexeme.source ≠ [] → Admits lexeme.kind lexeme.text := by
  intro lexeme hmem hne
  cases fragment with
  | token kind source =>
      obtain rfl := List.mem_singleton.mp hmem
      exact h hne
  | blanks run =>
      obtain ⟨c, hc, rfl⟩ := List.mem_map.mp hmem
      exact admits_blank (h c hc)
  | text raw => exact h lexeme hmem
  | expression source => exact Expression.admits_of_mem_lexemes source lexeme hmem
  | interpolation body =>
      rcases List.mem_append.mp hmem with hopened | hclosing
      · rcases List.mem_cons.mp hopened with rfl | hbody
        · simp [Admits, interpolationOpening]
        · exact Expression.admits_of_mem_lexemes body lexeme hbody
      · obtain rfl := List.mem_singleton.mp hclosing
        simp [Admits, interpolationClosing]
  | attributeName name => exact AttributeName.admits_of_mem_lexemes h lexeme hmem hne
  | quotedValue contents name =>
      have hquote : Admits .string ['"'] := .inl (.unclosed (.inr rfl) ⟨[], .nil, .inl rfl⟩)
      rcases List.mem_append.mp hmem with hopened | hclosing
      · rcases List.mem_cons.mp hopened with rfl | hcontents
        · exact hquote
        · unfold contentsLexemes at hcontents
          split at hcontents
          · exact Expression.admits_of_mem_lexemes contents lexeme hcontents
          · obtain rfl := List.mem_singleton.mp hcontents
            exact .inr ⟨hne, h⟩
      · obtain rfl := List.mem_singleton.mp hclosing
        exact hquote

end Fragment

variable {lenient : Bool} {state next : State} {text rest : List Char} {emitted : List Fragment}
  {failure : Failure}

theorem Advance.isWellFormed (h : Advance lenient state text emitted next rest) :
    ∀ fragment ∈ emitted, fragment.IsWellFormed := by
  cases h with
  | blank hc => simpa [Fragment.IsWellFormed, AllBlank] using hc
  | closingTag hblanks hname =>
      simpa [Fragment.IsWellFormed, Fragment.tagPunctuation, Admits, hname] using hblanks
  | @comment depth blanks body rest hblanks hbody hend =>
      obtain ⟨comment, rfl⟩ := Comment.exists_body hbody hend
      rw [List.forall_mem_singleton]
      rintro -
      refine ⟨blanks, hblanks, comment, ?_⟩
      simp [Comment.tagName, Comment.terminator]
  | openingTag hblanks hname hne hrest hcomment =>
      simpa [Fragment.IsWellFormed, Fragment.tagPunctuation, Admits, hname] using hblanks
  | interpolation hbody => simp [Fragment.IsWellFormed]
  | word hne hword =>
      rw [List.forall_mem_singleton, Fragment.IsWellFormed,
        Text.lexemes_of_word hne (Text.isBlank_of_mem_word hword), List.forall_mem_singleton]
      exact Text.admits_unescape hne hword
  | flag hname hne hdigit hblanks hstop hrest hequals hreserved =>
      simpa [Fragment.IsWellFormed, hname] using hblanks
  | key hname hne hdigit hblanks =>
      simpa [Fragment.IsWellFormed, Fragment.equals, Admits, hname] using hblanks
  | quotedValue hcontents =>
      obtain ⟨quoted, rfl⟩ := QuotedValue.exists_quoted hcontents
      rw [List.forall_mem_singleton]
      exact ⟨quoted, rfl⟩
  | @bareValue name depth value source rest hfirst hextent hcomplete hboundary =>
      rw [List.forall_mem_singleton]
      rintro -
      cases value with
      | number =>
          obtain ⟨numeral, rfl⟩ := BareValue.exists_numeral hextent hcomplete
          exact ⟨numeral, rfl⟩
      | boolean truth =>
          obtain ⟨⟨truth, text, hspelling⟩, rfl⟩ := BareValue.exists_truthValue hextent hcomplete
          refine .inr ?_
          rw [hspelling]
          cases truth <;> decide
  | _ => simp [Fragment.IsWellFormed, Fragment.tagPunctuation, Fragment.subtreeBrace, Admits]

theorem Refusal.isWellFormed (h : Refusal lenient state text emitted failure) :
    ∀ fragment ∈ emitted, fragment.IsWellFormed := by
  cases h with
  | reserved hname hblanks => simpa [Fragment.IsWellFormed, hname] using hblanks
  | _ => simp

end Markup

theorem admits_of_mem_markupLexemes {lenient : Bool} {input : List Char} :
    ∀ lexeme ∈ markupLexemes lenient input, lexeme.source ≠ [] →
      Admits lexeme.kind lexeme.text := by
  intro lexeme hmem
  obtain ⟨fragment, hfragment, hlexeme⟩ := List.mem_flatMap.mp hmem
  have hformed := forall_mem_run Refusal.isWellFormed Advance.isWellFormed _ _ fragment hfragment
  exact hformed.admits lexeme hlexeme

/-- Every token says what its kind admits, whatever the input and its errors are. -/
theorem lex_admits (options : Options) (input : String) {token : Token}
    (hmem : token ∈ (lex options input).tokens) : Admits token.kind token.text.toList := by
  have hlexemes : ∃ lexemes, (lex options input).tokens = Lexeme.placeAll 0 lexemes ∧
      ∀ lexeme ∈ lexemes, lexeme.source ≠ [] → Admits lexeme.kind lexeme.text := by
    cases hgrammar : options.grammar with
    | markup =>
        refine ⟨markupLexemes options.lenient input.toList, ?_, admits_of_mem_markupLexemes⟩
        rw [lex, hgrammar]
        exact lexMarkup_tokens _ _
    | expression =>
        refine ⟨Expression.lexemes input.toList, ?_, fun lexeme hlexeme _ =>
          Expression.admits_of_mem_lexemes _ lexeme hlexeme⟩
        rw [lex, hgrammar]
        rfl
  obtain ⟨lexemes, htokens, hadmits⟩ := hlexemes
  rw [htokens] at hmem
  obtain ⟨lexeme, hlexeme, hne, position, rfl⟩ := Lexeme.exists_of_mem_placeAll hmem
  rw [Lexeme.place, String.toList_ofList]
  exact hadmits lexeme hlexeme hne

/-- A number with a sign and no digit before its point, in a tag that is not ended. -/
theorem lex_admits_number :
    ⟨.number, "-.5", ⟨5, 8⟩⟩ ∈ (lex {} "<a b=-.5 ").tokens ∧ Admits .number "-.5".toList := by
  have hmem : ⟨.number, "-.5", ⟨5, 8⟩⟩ ∈ (lex {} "<a b=-.5 ").tokens := by decide +kernel
  exact ⟨hmem, lex_admits {} _ hmem⟩

end TemplateLexer
