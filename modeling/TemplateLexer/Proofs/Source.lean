import Mathlib.Data.List.Basic
import TemplateLexer.Proofs.Trace
import TemplateLexer.TokenStream

/-! # What lexemes are read from

The lexemes of a fragment are read from exactly the characters that the fragment
stands for, whatever its role. Their texts are these characters again, but for
the backslashes that a word of markup text loses.
-/

namespace TemplateLexer

namespace Markup.Text

/-- What a word means, read from left to right. A backslash before `<` or `}` is no part of it. -/
inductive Means : List Char → List Char → Prop where
  | nil : Means [] []
  | escape {c : Char} {rest text : List Char} (hc : c = '<' ∨ c = '}') (hrest : Means rest text) :
      Means ('\\' :: c :: rest) (c :: text)
  | plain {c : Char} {rest text : List Char}
      (hc : c = '\\' → ∀ next ∈ rest.head?, next ≠ '<' ∧ next ≠ '}') (hrest : Means rest text) :
      Means (c :: rest) (c :: text)

/-- Every word has one meaning, which is left of it when its escapes are removed. -/
theorem means_iff {word text : List Char} : Means word text ↔ text = unescape word := by
  constructor
  · intro h
    induction h with
    | nil => rfl
    | @escape c rest text hc hrest ih =>
        have hescapable : isEscapable c := by simpa [isEscapable] using hc
        rw [unescape_escaped hescapable, ih]
    | @plain c rest text hc hrest ih =>
        rw [unescape_cons, ih]
        intro hbackslash next hnext
        simpa [isEscapable] using hc hbackslash next hnext
  · rintro rfl
    -- A word is unescaped two characters at a time, so that its end is a case of its own.
    fun_induction unescape word with
    | case1 => exact .nil
    | case2 c => exact .plain (by simp) .nil
    | case3 c next rest hescape ih =>
        simp only [isEscapable, Bool.and_eq_true, Bool.or_eq_true, beq_iff_eq] at hescape
        obtain ⟨rfl, hnext⟩ := hescape
        exact .escape hnext ih
    | case4 c next rest hescape ih =>
        refine .plain (fun hc other hother => ?_) ih
        obtain rfl : next = other := Option.some.inj hother
        simpa [isEscapable, hc] using hescape

end Markup.Text

namespace Lexeme

/-- The text of a lexeme says what its characters are read as. Only words of
markup text have escapes. -/
def IsFaithful (lexeme : Lexeme) : Prop :=
  if lexeme.kind = .text then Markup.Text.Means lexeme.source lexeme.text
  else lexeme.text = lexeme.source

theorem isFaithful_mk {kind : Token.Kind} (hkind : kind ≠ .text) (source : List Char) :
    IsFaithful { kind, source } := by
  simp [IsFaithful, hkind]

theorem isFaithful_blank (c : Char) : IsFaithful (blank c) := by
  unfold blank
  split <;> exact isFaithful_mk (by decide) _

theorem kind_blank_mem (c : Char) : (blank c).kind ∈ [Token.Kind.whitespace, .tab] := by
  unfold blank
  split <;> simp

@[simp] theorem sourceOf_nil : sourceOf [] = [] := rfl

theorem sourceOf_singleton (lexeme : Lexeme) : sourceOf [lexeme] = lexeme.source := by
  simp [sourceOf]

theorem sourceOf_map_blank (run : List Char) : sourceOf (run.map blank) = run := by
  induction run with
  | nil => rfl
  | cons c rest ih =>
      rw [List.map_cons, sourceOf_cons, ih]
      rfl

end Lexeme

namespace Expression

/-- The kinds of tokens in an expression. -/
def kinds : List Token.Kind :=
  [.whitespace, .tab, .string, .number, .literal, .identifier, .operator, .punctuation, .plain]

theorem ne_text_of_mem_kinds {kind : Token.Kind} (h : kind ∈ kinds) : kind ≠ .text := by
  rintro rfl
  exact absurd h (by decide)

theorem classify_mem_kinds (c : Char) (rest : List Char) : (classify c rest).1 ∈ kinds := by
  unfold classify
  repeat' split
  all_goals simp [kinds]

/-- A lexeme of an expression has a kind of its own, and its text is its source. -/
theorem exists_of_mem_lexemes {text : List Char} {lexeme : Lexeme} (h : lexeme ∈ lexemes text) :
    ∃ kind ∈ kinds, ∃ source, lexeme = { kind, source } := by
  fun_induction lexemes text with
  | case1 => cases h
  | case2 c rest kind tail hclassify ih =>
      rcases List.mem_cons.mp h with rfl | htail
      · have hkind := classify_mem_kinds c rest
        rw [hclassify] at hkind
        exact ⟨kind, hkind, _, rfl⟩
      · exact ih htail

theorem mem_kinds_of_mem_lexemes {text : List Char} {lexeme : Lexeme} (h : lexeme ∈ lexemes text) :
    lexeme.kind ∈ kinds := by
  obtain ⟨kind, hkind, source, rfl⟩ := exists_of_mem_lexemes h
  exact hkind

theorem isFaithful_of_mem_lexemes {text : List Char} {lexeme : Lexeme} (h : lexeme ∈ lexemes text) :
    lexeme.IsFaithful := by
  obtain ⟨kind, hkind, source, rfl⟩ := exists_of_mem_lexemes h
  exact Lexeme.isFaithful_mk (ne_text_of_mem_kinds hkind) source

theorem sourceOf_lexemes (text : List Char) : Lexeme.sourceOf (lexemes text) = text := by
  fun_induction lexemes text with
  | case1 => rfl
  | case2 c rest kind tail _ ih =>
      rw [Lexeme.sourceOf_cons, ih, List.cons_append, List.take_append_drop]

end Expression

namespace Markup

namespace Text

theorem exists_of_mem_lexemes {text : List Char} {lexeme : Lexeme} (h : lexeme ∈ lexemes text) :
    (∃ c, lexeme = .blank c) ∨ ∃ word, lexeme = wordLexeme word := by
  fun_induction lexemes text with
  | case1 => cases h
  | case2 c rest _ ih =>
      rcases List.mem_cons.mp h with rfl | htail
      · exact .inl ⟨c, rfl⟩
      · exact ih htail
  | case3 c rest _ ih =>
      rcases List.mem_cons.mp h with rfl | htail
      · exact .inr ⟨_, rfl⟩
      · exact ih htail

theorem isFaithful_of_mem_lexemes {text : List Char} {lexeme : Lexeme} (h : lexeme ∈ lexemes text) :
    lexeme.IsFaithful := by
  rcases exists_of_mem_lexemes h with ⟨c, rfl⟩ | ⟨word, rfl⟩
  · exact Lexeme.isFaithful_blank c
  · exact means_iff.mpr rfl

/-- A word is one lexeme. -/
theorem lexemes_of_word {word : List Char} (hne : word ≠ [])
    (hword : ∀ c ∈ word, isBlank c = false) : lexemes word = [wordLexeme word] := by
  cases word with
  | nil => exact absurd rfl hne
  | cons c rest =>
      have hrest : ∀ c ∈ rest, (!isBlank c) = true := fun c hc => by
        rw [hword c (List.mem_cons_of_mem _ hc)]
        rfl
      rw [lexemes, if_neg (by simp [hword c List.mem_cons_self]),
        List.takeWhile_eq_self_iff.mpr hrest, List.dropWhile_eq_nil_iff.mpr hrest, lexemes]

theorem sourceOf_lexemes (text : List Char) : Lexeme.sourceOf (lexemes text) = text := by
  fun_induction lexemes text with
  | case1 => rfl
  | case2 c rest _ ih =>
      rw [Lexeme.sourceOf_cons, ih]
      rfl
  | case3 c rest _ ih =>
      rw [Lexeme.sourceOf_cons, ih, wordLexeme, List.cons_append,
        List.takeWhile_append_dropWhile]

end Text

namespace AttributeName

/-- A binding is its brackets and the name inside of them. -/
theorem eq_of_isBinding {name : List Char} (h : isBinding name) :
    name = '[' :: ((name.drop 1).dropLast ++ [']']) := by
  obtain ⟨hfirst, hlast⟩ : name.head? = some '[' ∧ name.getLast? = some ']' := by
    simpa [isBinding] using h
  obtain ⟨inner, rfl⟩ := List.head?_eq_some_iff.mp hfirst
  cases inner with
  | nil => cases hlast
  | cons c rest =>
      rw [List.getLast?_cons_cons] at hlast
      rw [List.drop_one, List.tail_cons, List.dropLast_append_getLast? _ hlast]

/-- The kinds of tokens in the name of an attribute. -/
def kinds : List Token.Kind :=
  [.attributeName, .directivePunctuation, .directiveKeyword, .bindingName]

theorem exists_of_mem_splitMarker {marker name : List Char} {lexeme : Lexeme}
    (h : lexeme ∈ (splitMarker marker name).1) :
    ∃ kind ∈ kinds, ∃ source, lexeme = { kind, source } := by
  unfold splitMarker at h
  split at h
  · simp only [List.mem_cons, List.not_mem_nil, or_false] at h
    rcases h with rfl | rfl <;> exact ⟨_, by decide, _, rfl⟩
  · cases h

/-- A lexeme of a name has a kind of its own, and its text is its source. -/
theorem exists_of_mem_lexemes {name : List Char} {lexeme : Lexeme} (h : lexeme ∈ lexemes name) :
    ∃ kind ∈ kinds, ∃ source, lexeme = { kind, source } := by
  unfold lexemes at h
  split at h
  · simp only [List.mem_cons, List.not_mem_nil, or_false] at h
    rcases h with rfl | rfl | rfl <;> exact ⟨_, by decide, _, rfl⟩
  · simp only [List.mem_append, List.mem_singleton] at h
    rcases h with (hstructural | hdeclaration) | rfl
    · unfold splitStructural at hstructural
      split at hstructural
      · rcases List.mem_cons.mp hstructural with rfl | hmarker
        · exact ⟨_, by decide, _, rfl⟩
        · exact exists_of_mem_splitMarker hmarker
      · cases hstructural
    · exact exists_of_mem_splitMarker hdeclaration
    · exact ⟨_, by decide, _, rfl⟩

theorem mem_kinds_of_mem_lexemes {name : List Char} {lexeme : Lexeme} (h : lexeme ∈ lexemes name) :
    lexeme.kind ∈ kinds := by
  obtain ⟨kind, hkind, source, rfl⟩ := exists_of_mem_lexemes h
  exact hkind

theorem sourceOf_splitMarker (marker : List Char) (hmarker : marker.getLast? = some '-')
    (name : List Char) :
    Lexeme.sourceOf (splitMarker marker name).1 ++ (splitMarker marker name).2 = name := by
  unfold splitMarker
  split
  next hbegins =>
    obtain ⟨rest, rfl⟩ := List.isPrefixOf_iff_prefix.mp hbegins
    have hkeyword : marker.dropLast ++ ['-'] = marker := List.dropLast_append_getLast? _ hmarker
    rw [List.drop_left, Lexeme.sourceOf_cons, Lexeme.sourceOf_singleton, punctuation, hkeyword]
  next => rfl

theorem sourceOf_splitStructural (name : List Char) :
    Lexeme.sourceOf (splitStructural name).1 ++ (splitStructural name).2 = name := by
  unfold splitStructural
  split
  next rest =>
    have hrest := sourceOf_splitMarker forMarker rfl rest
    simpa [Lexeme.sourceOf_cons, punctuation] using hrest
  next => rfl

theorem sourceOf_lexemes (name : List Char) : Lexeme.sourceOf (lexemes name) = name := by
  unfold lexemes
  split
  next hbinding =>
    rw [Lexeme.sourceOf_cons, Lexeme.sourceOf_cons, Lexeme.sourceOf_singleton]
    exact (eq_of_isBinding hbinding).symm
  next =>
    have hstructural := sourceOf_splitStructural name
    have hdeclaration := sourceOf_splitMarker letMarker rfl (splitStructural name).2
    simp only [Lexeme.sourceOf_append, Lexeme.sourceOf_append, Lexeme.sourceOf_singleton,
      List.append_assoc, hdeclaration, hstructural]

end AttributeName

namespace Fragment

/-- The kinds of tokens in a fragment. -/
def kinds : Fragment → List Token.Kind
  | .token kind _ => [kind]
  | .blanks _ => [.whitespace, .tab]
  | .text _ => [.whitespace, .tab, .text]
  | .expression _ => Expression.kinds
  | .interpolation _ => .interpolation :: Expression.kinds
  | .attributeName _ => AttributeName.kinds
  | .quotedValue _ _ => .string :: Expression.kinds

theorem kind_mem_kinds {fragment : Fragment} {lexeme : Lexeme} (h : lexeme ∈ fragment.lexemes) :
    lexeme.kind ∈ fragment.kinds := by
  cases fragment with
  | token kind source =>
      rw [List.mem_singleton.mp h]
      exact List.mem_singleton_self kind
  | blanks run =>
      obtain ⟨c, _, rfl⟩ := List.mem_map.mp h
      exact Lexeme.kind_blank_mem c
  | text raw =>
      rcases Text.exists_of_mem_lexemes h with ⟨c, rfl⟩ | ⟨word, rfl⟩
      · exact List.mem_append_left [Token.Kind.text] (Lexeme.kind_blank_mem c)
      · exact List.mem_append_right [Token.Kind.whitespace, .tab] (List.mem_singleton_self _)
  | expression source => exact Expression.mem_kinds_of_mem_lexemes h
  | interpolation body =>
      rcases List.mem_append.mp h with hopened | hclosing
      · rcases List.mem_cons.mp hopened with rfl | hbody
        · exact List.mem_cons_self
        · exact List.mem_cons_of_mem _ (Expression.mem_kinds_of_mem_lexemes hbody)
      · rw [List.mem_singleton.mp hclosing]
        exact List.mem_cons_self
  | attributeName name => exact AttributeName.mem_kinds_of_mem_lexemes h
  | quotedValue contents name =>
      rcases List.mem_append.mp h with hopened | hclosing
      · rcases List.mem_cons.mp hopened with rfl | hcontents
        · exact List.mem_cons_self
        · unfold contentsLexemes at hcontents
          split at hcontents
          · exact List.mem_cons_of_mem _ (Expression.mem_kinds_of_mem_lexemes hcontents)
          · rw [List.mem_singleton.mp hcontents]
            exact List.mem_cons_self
      · rw [List.mem_singleton.mp hclosing]
        exact List.mem_cons_self

/-- Only a text says something else than its characters. -/
theorem text_eq_source_of_mem_lexemes {fragment : Fragment} (htext : ∀ raw, fragment ≠ .text raw)
    {lexeme : Lexeme} (h : lexeme ∈ fragment.lexemes) : lexeme.text = lexeme.source := by
  have hexpression : ∀ {source : List Char}, lexeme ∈ Expression.lexemes source →
      lexeme.text = lexeme.source := by
    intro source hmem
    obtain ⟨kind, _, source, rfl⟩ := Expression.exists_of_mem_lexemes hmem
    rfl
  cases fragment with
  | token kind source => rw [List.mem_singleton.mp h]
  | blanks run =>
      obtain ⟨c, _, rfl⟩ := List.mem_map.mp h
      rfl
  | text raw => exact absurd rfl (htext raw)
  | expression source => exact hexpression h
  | interpolation body =>
      rcases List.mem_append.mp h with hopened | hclosing
      · rcases List.mem_cons.mp hopened with rfl | hbody
        · rfl
        · exact hexpression hbody
      · rw [List.mem_singleton.mp hclosing]
  | attributeName name =>
      obtain ⟨kind, _, source, rfl⟩ := AttributeName.exists_of_mem_lexemes h
      rfl
  | quotedValue contents name =>
      rcases List.mem_append.mp h with hopened | hclosing
      · rcases List.mem_cons.mp hopened with rfl | hcontents
        · rfl
        · unfold contentsLexemes at hcontents
          split at hcontents
          · exact hexpression hcontents
          · rw [List.mem_singleton.mp hcontents]
      · rw [List.mem_singleton.mp hclosing]

theorem sourceOf_contentsLexemes (contents name : List Char) :
    Lexeme.sourceOf (contentsLexemes contents name) = contents := by
  unfold contentsLexemes
  split
  · exact Expression.sourceOf_lexemes contents
  · exact Lexeme.sourceOf_singleton _

/-- A fragment is read from its own characters only. -/
theorem sourceOf_lexemes (fragment : Fragment) :
    Lexeme.sourceOf fragment.lexemes = fragment.source := by
  cases fragment with
  | token kind source => exact Lexeme.sourceOf_singleton _
  | blanks run => exact Lexeme.sourceOf_map_blank run
  | text raw => exact Text.sourceOf_lexemes raw
  | expression source => exact Expression.sourceOf_lexemes source
  | interpolation body =>
      rw [lexemes, Lexeme.sourceOf_append, Lexeme.sourceOf_cons, Expression.sourceOf_lexemes,
        Lexeme.sourceOf_singleton]
      rfl
  | attributeName name => exact AttributeName.sourceOf_lexemes name
  | quotedValue contents name =>
      rw [lexemes, Lexeme.sourceOf_append, Lexeme.sourceOf_cons, sourceOf_contentsLexemes,
        Lexeme.sourceOf_singleton]
      rfl

end Fragment

end Markup

end TemplateLexer
