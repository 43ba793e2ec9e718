import TemplateLexer.Proofs.Tiling

/-! # Positions that a run comes to

A claim about one construct is a claim about every input in which the lexer comes to it, wherever
that is. So a run is cut at a position of its input: the tokens that end there are those of what
was read in front of it, and the others are what the lexer reads from there on.
-/

namespace TemplateLexer

theorem Token.Tile.bounds_of_mem {start stop : Nat} {tokens : List Token}
    (h : Tile start tokens stop) {token : Token} (hmem : token ∈ tokens) :
    start ≤ token.span.start ∧ token.span.start < stop := by
  induction h with
  | nil => cases hmem
  | @cons first rest stop hfirst hrest ih =>
      rcases List.mem_cons.mp hmem with rfl | htail
      · exact ⟨Nat.le_refl _, Nat.lt_of_lt_of_le hfirst hrest.le⟩
      · obtain ⟨hle, hlt⟩ := ih htail
        exact ⟨by omega, hlt⟩

theorem Lexeme.bounds_of_mem_placeAll {offset : Nat} {lexemes : List Lexeme} {token : Token}
    (h : token ∈ placeAll offset lexemes) :
    offset ≤ token.span.start ∧ token.span.start < offset + (sourceOf lexemes).length :=
  (tile_placeAll lexemes offset).bounds_of_mem h

namespace Markup

/-- The lexer comes to a position of an input in a state, and has read these fragments then. -/
structure Reaches (lenient : Bool) (input : List Char) (before : List Fragment) (state : State)
    (position : Nat) : Prop where
  trace : Trace lenient (.content 0) input before state (input.drop position)
  position_le : position ≤ input.length

namespace Reaches

variable {lenient : Bool} {input : List Char} {before emitted : List Fragment}
  {state next : State} {position : Nat}

/-- What was read in front of a position is what stands there. -/
theorem length_sourceOf (h : Reaches lenient input before state position) :
    (Fragment.sourceOf before).length = position := by
  have hlength := congrArg List.length h.trace.text_eq
  have hle := h.position_le
  rw [List.length_append, List.length_drop] at hlength
  omega

/-- A production leads from one position to another. -/
theorem advance (h : Reaches lenient input before state position) {stop : Nat}
    (hadvance : Advance lenient state (input.drop position) emitted next (input.drop stop))
    (hstop : stop ≤ input.length) : Reaches lenient input (before ++ emitted) next stop :=
  ⟨h.trace.trans (.single hadvance), hstop⟩

/-- What is read from one position to another begins what the lexer reads from there on. -/
theorem run_eq_append (h : Reaches lenient input before state position) {stop : Nat}
    (hnext : Reaches lenient input (before ++ emitted) next stop) :
    (run lenient state (input.drop position)).1 =
        emitted ++ (run lenient next (input.drop stop)).1 ∧
      stop = position + (Fragment.sourceOf emitted).length := by
  constructor
  · have hrun := congrArg Prod.fst (h.trace.run_eq.symm.trans hnext.trace.run_eq)
    simpa using hrun
  · rw [← hnext.length_sourceOf, Fragment.sourceOf_append, List.length_append, h.length_sourceOf]

/-- The tokens of an input are those in front of a position and those from there on. -/
theorem tokens_eq (h : Reaches lenient input before state position) :
    (lexMarkup lenient input).tokens =
      Lexeme.placeAll 0 (before.flatMap Fragment.lexemes) ++
        Lexeme.placeAll position (runLexemes lenient state (input.drop position)).1 := by
  rw [lexMarkup_tokens, markupLexemes, h.trace.run_eq, List.flatMap_append,
    Lexeme.placeAll_append, Fragment.sourceOf_flatMap_lexemes, h.length_sourceOf, Nat.zero_add]
  rfl

/-- A fragment that is one token is a token of the input. -/
theorem token_mem (h : Reaches lenient input before state position) {kind : Token.Kind}
    {source : List Char} {stop : Nat}
    (hnext : Reaches lenient input (before ++ [.token kind source]) next stop)
    (hne : source ≠ []) :
    ⟨kind, .ofList source, ⟨position, stop⟩⟩ ∈ (lexMarkup lenient input).tokens := by
  obtain ⟨_, hstop⟩ := h.run_eq_append hnext
  rw [hnext.tokens_eq, List.flatMap_append, Lexeme.placeAll_append,
    Fragment.sourceOf_flatMap_lexemes, h.length_sourceOf]
  simp [Fragment.lexemes, Lexeme.placeAll, Lexeme.place, hne, hstop, Fragment.sourceOf,
    Fragment.source]

/-- A token of some fragments is of one of them. -/
theorem exists_fragment_of_mem {token : Token}
    (h : token ∈ Lexeme.placeAll position (emitted.flatMap Fragment.lexemes)) :
    ∃ fragment ∈ emitted, token.kind ∈ fragment.kinds := by
  obtain ⟨lexeme, hlexeme, _, _, rfl⟩ := Lexeme.exists_of_mem_placeAll h
  obtain ⟨fragment, hfragment, hfound⟩ := List.mem_flatMap.mp hlexeme
  exact ⟨fragment, hfragment, Fragment.kind_mem_kinds hfound⟩

/-- A token at a position belongs to what the lexer reads next. -/
theorem exists_of_mem (h : Reaches lenient input before state position) {token : Token}
    (hmem : token ∈ (lexMarkup lenient input).tokens) (hstart : token.span.start = position) :
    ∃ emitted, (∃ fragment ∈ emitted, token.kind ∈ fragment.kinds) ∧
      ((∃ next rest, Advance lenient state (input.drop position) emitted next rest) ∨
        ∃ failure, Refusal lenient state (input.drop position) emitted failure) := by
  rw [h.tokens_eq, List.mem_append] at hmem
  rcases hmem with hbefore | hbehind
  · have hbounds := Lexeme.bounds_of_mem_placeAll hbefore
    rw [Fragment.sourceOf_flatMap_lexemes, h.length_sourceOf] at hbounds
    omega
  · cases hstep : step lenient state (input.drop position) with
    | finished =>
        obtain ⟨rfl, hnil⟩ := step_eq_finished_iff.mp hstep
        simp [hnil, runLexemes_finished, Lexeme.placeAll] at hbehind
    | failed emitted failure =>
        have hrefusal := step_eq_failed_iff.mp hstep
        rw [runLexemes, run_of_refusal hrefusal] at hbehind
        exact ⟨emitted, exists_fragment_of_mem hbehind, .inr ⟨failure, hrefusal⟩⟩
    | advanced emitted next rest =>
        have hadvance := step_eq_advanced_iff.mp hstep
        refine ⟨emitted, ?_, .inl ⟨next, rest, hadvance⟩⟩
        rw [runLexemes, run_of_advance hadvance, List.flatMap_append, Lexeme.placeAll_append,
          Fragment.sourceOf_flatMap_lexemes, List.mem_append] at hbehind
        -- What is read later stands behind the position, for a production reads something.
        rcases hbehind with hnow | hlater
        · exact exists_fragment_of_mem hnow
        · have hbounds := Lexeme.bounds_of_mem_placeAll hlater
          have hpos := List.length_pos_iff.mpr hadvance.sourceOf_ne_nil
          omega

end Reaches

end Markup

end TemplateLexer
