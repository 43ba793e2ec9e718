import TemplateLexer.Proofs.Sentence

/-! # Fragments as parts of sentences

The tokens of each fragment, by kind and text, are the part of a sentence that
its role calls for.
-/

namespace TemplateLexer

namespace Lexeme

/-- The kinds and texts of the tokens that lexemes become. -/
def piecesOf (lexemes : List Lexeme) : List Piece :=
  (lexemes.filter (!·.source.isEmpty)).map fun lexeme => (lexeme.kind, lexeme.text)

@[simp] theorem piecesOf_nil : piecesOf [] = [] := rfl

theorem piecesOf_append (first second : List Lexeme) :
    piecesOf (first ++ second) = piecesOf first ++ piecesOf second := by
  simp [piecesOf]

theorem piecesOf_cons {lexeme : Lexeme} (hne : lexeme.source ≠ []) (rest : List Lexeme) :
    piecesOf (lexeme :: rest) = (lexeme.kind, lexeme.text) :: piecesOf rest := by
  simp [piecesOf, hne]

theorem piece_place (offset : Nat) (lexeme : Lexeme) :
    (lexeme.place offset).piece = (lexeme.kind, lexeme.text) := by
  rw [Token.piece, place, String.toList_ofList]

/-- Placing lexemes does not change what their tokens are. -/
theorem map_piece_placeAll (offset : Nat) (lexemes : List Lexeme) :
    (placeAll offset lexemes).map Token.piece = piecesOf lexemes := by
  induction lexemes generalizing offset with
  | nil => rfl
  | cons lexeme rest ih =>
      rw [placeAll]
      split
      next hempty => simpa [piecesOf, List.isEmpty_iff.mp hempty] using ih offset
      next hne =>
        rw [List.isEmpty_iff] at hne
        rw [piecesOf_cons hne, List.map_cons, ih, piece_place]

theorem getLast?_kind_placeAll (offset : Nat) (lexemes : List Lexeme) :
    (placeAll offset lexemes).getLast?.map Token.kind =
      (piecesOf lexemes).getLast?.map Prod.fst := by
  rw [← map_piece_placeAll offset, List.getLast?_map, Option.map_map]
  rfl

theorem kind_of_mem_piecesOf {lexemes : List Lexeme} {piece : Piece}
    (h : piece ∈ piecesOf lexemes) :
    ∃ lexeme ∈ lexemes, piece.1 = lexeme.kind := by
  obtain ⟨lexeme, hmem, rfl⟩ := List.mem_map.mp h
  exact ⟨lexeme, (List.mem_filter.mp hmem).1, rfl⟩

/-- Lexemes that become no tokens were read from nothing. -/
theorem sourceOf_eq_nil_of_piecesOf {lexemes : List Lexeme} (h : piecesOf lexemes = []) :
    sourceOf lexemes = [] := by
  have hempty := List.filter_eq_nil_iff.mp (List.map_eq_nil_iff.mp h)
  exact List.flatMap_eq_nil_iff.mpr fun lexeme hmem => by simpa using hempty lexeme hmem

end Lexeme

namespace Sentence

/-- A token of a kind is there unless its source is empty. -/
theorem optional_piecesOf (kind : Token.Kind) (source : List Char) :
    Optional kind (Lexeme.piecesOf [{ kind, source }]) := by
  cases source with
  | nil => exact .inl rfl
  | cons c rest => exact .inr ⟨_, rfl⟩

theorem blanks_nil : Blanks [] := nofun

theorem Blanks.cons {piece : Piece} {rest : List Piece} (hpiece : piece.1.isBlank)
    (hrest : Blanks rest) : Blanks (piece :: rest) := fun other hmem => by
  rcases List.mem_cons.mp hmem with rfl | htail
  · exact hpiece
  · exact hrest other htail

end Sentence

namespace Markup

theorem isBlank_kind_blank (c : Char) : (Lexeme.blank c).kind.isBlank := by
  unfold Lexeme.blank
  split <;> rfl

/-- The tokens of fragments that are read in order. -/
def Fragment.piecesOf (fragments : List Fragment) : List Piece :=
  Lexeme.piecesOf (fragments.flatMap Fragment.lexemes)

namespace Fragment

open Sentence

@[simp] theorem piecesOf_nil : piecesOf [] = [] := rfl

theorem piecesOf_cons (fragment : Fragment) (rest : List Fragment) :
    piecesOf (fragment :: rest) = Lexeme.piecesOf fragment.lexemes ++ piecesOf rest := by
  rw [piecesOf, List.flatMap_cons, Lexeme.piecesOf_append]
  rfl

theorem piecesOf_append (first second : List Fragment) :
    piecesOf (first ++ second) = piecesOf first ++ piecesOf second := by
  rw [piecesOf, List.flatMap_append, Lexeme.piecesOf_append]
  rfl

theorem piecesOf_blanks (run : List Char) : Blanks (Lexeme.piecesOf (blanks run).lexemes) := by
  intro piece hmem
  obtain ⟨lexeme, hlexeme, hkind⟩ := Lexeme.kind_of_mem_piecesOf hmem
  obtain ⟨c, _, rfl⟩ := List.mem_map.mp hlexeme
  rw [hkind]
  exact isBlank_kind_blank c

theorem piecesOf_expression (source : List Char) :
    InExpression (Lexeme.piecesOf (Expression.lexemes source)) := by
  intro piece hmem
  obtain ⟨lexeme, hlexeme, hkind⟩ := Lexeme.kind_of_mem_piecesOf hmem
  rw [hkind]
  exact Expression.mem_kinds_of_mem_lexemes hlexeme

theorem piecesOf_tagPunctuation (c : Char) :
    Lexeme.piecesOf (tagPunctuation c).lexemes = [tagMark c] := rfl

theorem piecesOf_subtreeBrace (c : Char) :
    Lexeme.piecesOf (subtreeBrace c).lexemes = [brace c] := rfl

theorem piecesOf_equals : Lexeme.piecesOf equals.lexemes = [equalsMark] := rfl

theorem piecesOf_token {kind : Token.Kind} {source : List Char} (hne : source ≠ []) :
    Lexeme.piecesOf (token kind source).lexemes = [(kind, source)] :=
  Lexeme.piecesOf_cons hne []

theorem mem_piecesOf_of_mem {kind : Token.Kind} {source : List Char} {fragments : List Fragment}
    (hmem : token kind source ∈ fragments) (hne : source ≠ []) :
    (kind, source) ∈ piecesOf fragments := by
  obtain ⟨before, after, rfl⟩ := List.append_of_mem hmem
  simp [piecesOf_append, piecesOf_cons, piecesOf_token hne]

theorem piecesOf_interpolation (body : List Char) :
    Lexeme.piecesOf (interpolation body).lexemes =
      interpolationMark '{' :: (Lexeme.piecesOf (Expression.lexemes body) ++
        [interpolationMark '}']) := by
  rw [lexemes, Lexeme.piecesOf_append, Lexeme.piecesOf_cons (by decide)]
  rfl

/-- A word of text is one token. -/
theorem piecesOf_text {word : List Char} (hne : word ≠ []) (hword : ∀ c ∈ word, isBlank c = false) :
    Lexeme.piecesOf (text word).lexemes = [(.text, Text.unescape word)] := by
  rw [lexemes, Text.lexemes_of_word hne hword]
  exact Lexeme.piecesOf_cons hne []

/-- The contents of a quoted value are opaque unless its attribute is a directive. -/
theorem phrase_quotedValue (contents name : List Char) :
    Phrase (.value (AttributeName.isDirective name))
      (Lexeme.piecesOf (quotedValue contents name).lexemes) := by
  rw [lexemes, Lexeme.piecesOf_append, Lexeme.piecesOf_cons (by decide), contentsLexemes]
  split
  next hdirective =>
    rw [hdirective]
    exact .quotedExpression (piecesOf_expression contents)
  next hplain =>
    rw [Bool.not_eq_true] at hplain
    rw [hplain]
    exact .quoted (optional_piecesOf .string contents)

end Fragment

namespace AttributeName

open Sentence

theorem splitMarker_of_not {marker name : List Char} (h : marker.isPrefixOf name = false) :
    splitMarker marker name = ([], name) := by
  simp [splitMarker, h]

theorem splitMarker_of {marker name : List Char} (h : marker.isPrefixOf name) :
    splitMarker marker name =
      ([{ kind := .directiveKeyword, source := marker.dropLast }, punctuation '-'],
        name.drop marker.length) := by
  simp [splitMarker, h]

theorem splitStructural_of_not {name : List Char} (h : name.head? ≠ some '*') :
    splitStructural name = ([], name) := by
  unfold splitStructural
  split
  next => exact absurd rfl h
  next => rfl

theorem piecesOf_splitMarker_let (name : List Char) :
    Lexeme.piecesOf (splitMarker letMarker name).1 ∈ declarationMarkers := by
  cases hlet : letMarker.isPrefixOf name with
  | false =>
      rw [splitMarker_of_not hlet]
      exact List.mem_cons_self
  | true =>
      rw [splitMarker_of hlet]
      exact List.mem_cons_of_mem _ List.mem_cons_self

theorem piecesOf_splitStructural (name : List Char) :
    Lexeme.piecesOf (splitStructural name).1 ∈ structuralMarkers := by
  unfold splitStructural
  split
  next rest =>
    cases hfor : forMarker.isPrefixOf rest with
    | false =>
        rw [splitMarker_of_not hfor]
        exact List.mem_cons_of_mem _ List.mem_cons_self
    | true =>
        rw [splitMarker_of hfor]
        exact List.mem_cons_of_mem _ (List.mem_cons_of_mem _ List.mem_cons_self)
  next => exact List.mem_cons_self

/-- A name that is no directive is one token. -/
theorem lexemes_of_not_isDirective {name : List Char} (h : isDirective name = false) :
    lexemes name = [{ kind := .attributeName, source := name }] := by
  simp only [isDirective, Bool.or_eq_false_iff] at h
  obtain ⟨⟨hasterisk, hbinding⟩, hlet⟩ := h
  rw [lexemes, if_neg (by simp [hbinding]), splitStructural_of_not (by simpa using hasterisk)]
  dsimp only
  rw [splitMarker_of_not hlet]
  rfl

/-- A directive that is no binding has a marker. -/
theorem piecesOf_markers_ne_nil {name : List Char} (hdirective : isDirective name)
    (hbinding : isBinding name = false) :
    Lexeme.piecesOf (splitStructural name).1 ++
      Lexeme.piecesOf (splitMarker letMarker (splitStructural name).2).1 ≠ [] := by
  by_cases hasterisk : name.head? = some '*'
  · obtain ⟨rest, rfl⟩ := List.head?_eq_some_iff.mp hasterisk
    rw [splitStructural, Lexeme.piecesOf_cons (by simp [punctuation])]
    exact List.cons_ne_nil _ _
  · have hlet : letMarker.isPrefixOf name := by
      simpa [isDirective, hbinding, hasterisk] using hdirective
    rw [splitStructural_of_not hasterisk, splitMarker_of hlet]
    exact List.cons_ne_nil _ _

/-- The tokens of a name are one, and it is known from them whether it is the name
of a directive. -/
theorem name_piecesOf {name : List Char} (hne : name ≠ []) :
    Name (isDirective name) (Lexeme.piecesOf (Fragment.attributeName name).lexemes) := by
  rw [Fragment.lexemes]
  cases hdirective : isDirective name with
  | false =>
      rw [lexemes_of_not_isDirective hdirective, Lexeme.piecesOf_cons hne]
      exact .plain
  | true =>
      unfold lexemes
      split
      next =>
        change Name true (Lexeme.piecesOf ([punctuation '['] ++
          ([{ kind := .bindingName, source := (name.drop 1).dropLast }] ++ [punctuation ']'])))
        rw [Lexeme.piecesOf_append, Lexeme.piecesOf_append]
        exact .binding (optional_piecesOf .bindingName _)
      next hbinding =>
        rw [Bool.not_eq_true] at hbinding
        dsimp only
        rw [Lexeme.piecesOf_append, Lexeme.piecesOf_append]
        exact .marked (piecesOf_splitStructural name) (piecesOf_splitMarker_let _)
          (piecesOf_markers_ne_nil hdirective hbinding) (optional_piecesOf .attributeName _)

end AttributeName

end Markup

end TemplateLexer
