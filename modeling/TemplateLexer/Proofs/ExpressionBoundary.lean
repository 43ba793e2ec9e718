import TemplateLexer.Proofs.Concatenation
import TemplateLexer.Proofs.ExpressionRules

/-! # Boundaries in expressions

The lexer of expressions carries nothing from one token to the next: where one ends and
another begins, an expression can be cut into two that are read on their own. What a rule
sees behind its lexeme it sees in every beginning of it, apart from the second point of a
range, and no boundary separates the two points of a range.
-/

namespace TemplateLexer.Expression

open Lexeme (sourceOf)

section Rules

variable {kind : Token.Kind} {source rest other : List Char} {c : Char}

theorem StandsAlone.exchange (h : StandsAlone c rest) (hother : BeginsAs other rest) :
    StandsAlone c other where
  number := by
    have hnumber := h.number
    simp only [startsNumber, Bool.or_eq_false_iff, Bool.and_eq_false_iff] at hnumber ⊢
    exact ⟨hnumber.1, hnumber.2.imp_right hother.any_eq_false⟩
  pair := hother.any_eq_false h.pair

/-- What a rule reads before a text it reads before a beginning of the text, if this does not end
within a range. -/
theorem Rule.exchange (h : Rule kind source rest) (hother : other <+: rest)
    (hrange : ['.', '.'] <+: rest → other = [] ∨ ['.', '.'] <+: other) :
    Rule kind source other := by
  have hbegins := BeginsAs.of_isPrefix hother
  cases h with
  | tab => exact .tab
  | blank hc htab => exact .blank hc htab
  | string hquote hinside => exact .string hquote hinside
  | unclosedString hquote htext =>
      rw [List.prefix_nil.mp hother]
      exact .unclosedString hquote htext
  | keyword hkeyword => exact .keyword hkeyword
  | @identifier c run _ hc hkeyword hrun hrest =>
      have hlonger : c :: (run ++ other) <+: c :: (run ++ rest) :=
        List.cons_prefix_cons.mpr ⟨rfl, (List.prefix_append_right_inj run).mpr hother⟩
      refine .identifier hc (fun keyword hmem hfound => ?_) hrun (hbegins.stops hrest)
      exact hkeyword keyword hmem (hfound.trans hlonger)
  | integer hsign hne hwhole hrest hpoint =>
      refine .integer hsign hne hwhole (hbegins.stops hrest) fun hhead => ?_
      rcases hrange (hpoint (hbegins _ hhead)) with rfl | hother
      · cases hhead
      · exact hother
  | decimal hsign hne hwhole hdigits hrest hpoint =>
      exact .decimal hsign hne hwhole hdigits (hbegins.stops hrest)
        fun hnil => hbegins.head?_ne (hpoint hnil)
  | fraction hne hdigits hrest => exact .fraction hne hdigits (hbegins.stops hrest)
  | pair hpair => exact .pair hpair
  | operator hc halone => exact .operator hc (halone.exchange hbegins)
  | punctuation hc halone => exact .punctuation hc (halone.exchange hbegins)
  | plain hc hoperator hpunctuation halone =>
      exact .plain hc hoperator hpunctuation (halone.exchange hbegins)

end Rules

/-- No boundary separates the two points of a range. -/
theorem range_not_separated {text : List Char} {first later : List Lexeme}
    (h : lexemes text = first ++ later) (hrange : ['.', '.'] <+: text) :
    sourceOf first = [] ∨ ['.', '.'] <+: sourceOf first := by
  obtain ⟨rest, rfl⟩ := hrange
  cases first with
  | nil => exact .inl rfl
  | cons lexeme first =>
      have hlexemes := (lexemes_range rest).symm.trans h
      obtain ⟨rfl, _⟩ := List.cons.inj hlexemes
      rw [Lexeme.sourceOf_cons]
      exact .inr (List.prefix_append _ _)

/-- The lexemes on either side of a boundary are those of an expression of its own. -/
theorem lexemes_of_boundary {text : List Char} {first later : List Lexeme}
    (h : lexemes text = first ++ later) :
    lexemes (sourceOf first) = first ∧ lexemes (sourceOf later) = later := by
  induction first generalizing text with
  | nil =>
      rw [List.nil_append] at h
      rw [← h, sourceOf_lexemes]
      exact ⟨lexemes.eq_1, rfl⟩
  | cons lexeme first ih =>
      have hne : text ≠ [] := by
        rintro rfl
        simp [lexemes] at h
      obtain ⟨kind, source, rest, rfl, hrule, hlexemes⟩ := exists_rule hne
      rw [hlexemes, List.cons_append] at h
      obtain ⟨rfl, hrest⟩ := List.cons.inj h
      obtain ⟨hfirst, hlater⟩ := ih hrest
      have hsource : rest = sourceOf first ++ sourceOf later := by
        rw [← Lexeme.sourceOf_append, ← hrest, sourceOf_lexemes]
      have hbegins : sourceOf first <+: rest := ⟨_, hsource.symm⟩
      have hexchanged := hrule.exchange hbegins (range_not_separated hrest)
      rw [Lexeme.sourceOf_cons, hexchanged.lexemes_eq, hfirst]
      exact ⟨rfl, hlater⟩

theorem tokens_of_append {input : String} {first later : List Lexeme}
    (h : lexemes input.toList = first ++ later) :
    tokens input = tokens (.ofList (input.toList.take (sourceOf first).length)) ++
      (tokens (.ofList (input.toList.drop (sourceOf first).length))).map
        (Token.shift (sourceOf first).length) := by
  obtain ⟨hfirst, hlater⟩ := lexemes_of_boundary h
  have hinput : input.toList = sourceOf first ++ sourceOf later := by
    rw [← Lexeme.sourceOf_append, ← h, sourceOf_lexemes]
  rw [tokens, h, Lexeme.placeAll_append, hinput, List.take_left, List.drop_left, tokens, tokens,
    String.toList_ofList, String.toList_ofList, hfirst, hlater, ← Lexeme.placeAll_add, Nat.zero_add,
    Nat.add_zero]

/-- An expression can be cut where a token begins or ends, and both parts are read as they are read
within the whole. -/
theorem tokens_eq_of_boundary {input : String} {token : Token} {position : Nat}
    (hmem : token ∈ tokens input)
    (hposition : position = token.span.start ∨ position = token.span.stop) :
    tokens input = tokens (.ofList (input.toList.take position)) ++
      (tokens (.ofList (input.toList.drop position))).map (Token.shift position) := by
  obtain ⟨before, behind, htokens⟩ := List.append_of_mem hmem
  obtain ⟨first, lexeme, later, hlexemes, _, rfl, _⟩ := Lexeme.exists_of_placeAll_eq htokens
  rcases hposition with rfl | rfl
  · have hstart := tokens_of_append hlexemes
    simpa [Lexeme.place] using hstart
  · rw [← List.singleton_append, ← List.append_assoc] at hlexemes
    have hstop := tokens_of_append hlexemes
    simpa [Lexeme.place, Lexeme.sourceOf_append, Lexeme.sourceOf_singleton] using hstop

/-- The boundary before the points of a range. -/
theorem tokens_eq_of_boundary_range :
    ⟨.operator, "..", ⟨1, 3⟩⟩ ∈ tokens "1..5" ∧
      tokens "1..5" = tokens "1" ++ (tokens "..5").map (Token.shift 1) := by
  have hmem : ⟨.operator, "..", ⟨1, 3⟩⟩ ∈ tokens "1..5" := by decide +kernel
  have hfirst : String.ofList ("1..5".toList.take 1) = "1" := by decide
  have hsecond : String.ofList ("1..5".toList.drop 1) = "..5" := by decide
  rw [← hfirst, ← hsecond]
  exact ⟨hmem, tokens_eq_of_boundary hmem (.inl rfl)⟩

end TemplateLexer.Expression
