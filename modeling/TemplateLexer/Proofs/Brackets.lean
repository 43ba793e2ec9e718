import TemplateLexer.Proofs.SentenceSoundness

/-! # Brackets

Tags and subtrees are nested in turn: a subtree begins only in a tag, and a tag
only outside of one. The brackets of an interpolation never stand without each
other, not even in front of an error.
-/

namespace TemplateLexer

open Sentence

/-- What may be open between two tokens. -/
inductive Bracket where
  | tag
  | subtree
deriving DecidableEq

namespace Bracket

/-- Reads a token, given what is open before it. The result is what is open behind
the token, or nothing if it may not stand there. -/
def read (stack : List Bracket) (piece : Piece) : Option (List Bracket) :=
  match piece.1 with
  | .tagPunctuation =>
    match piece.2, stack with
    | ['/'], .tag :: _ => some stack
    | ['<'], .tag :: _ => none
    | ['<'], _ => some (.tag :: stack)
    | ['>'], .tag :: outer => some outer
    | _, _ => none
  | .subtreeBrace =>
    match piece.2, stack with
    | ['{'], .tag :: _ => some (.subtree :: stack)
    | ['}'], .subtree :: outer => some outer
    | _, _ => none
  | _ => some stack

def readAll (stack : List Bracket) (pieces : List Piece) : Option (List Bracket) :=
  pieces.foldlM read stack

/-- The kinds of tokens that nesting depends on. -/
def isBracket : Token.Kind → Bool
  | .tagPunctuation | .subtreeBrace => true
  | _ => false

/-- The stacks on which a phrase of the grammar may stand. -/
def Admits : Symbol → List Bracket → Prop
  | .content _, stack | .tag, stack => stack.head? ≠ some .tag
  | .attributes, stack | .entry, stack | .value _, stack => stack.head? = some .tag

variable {stack : List Bracket}

@[simp] theorem readAll_nil : readAll stack [] = some stack := rfl

theorem readAll_cons (piece : Piece) (rest : List Piece) :
    readAll stack (piece :: rest) = (read stack piece).bind (readAll · rest) := rfl

theorem readAll_append (first second : List Piece) :
    readAll stack (first ++ second) = (readAll stack first).bind (readAll · second) :=
  List.foldlM_append

theorem read_plain {piece : Piece} (h : isBracket piece.1 = false) :
    read stack piece = some stack := by
  obtain ⟨kind, text⟩ := piece
  cases kind <;> first | rfl | contradiction

theorem readAll_plain {pieces : List Piece} (h : ∀ piece ∈ pieces, isBracket piece.1 = false) :
    readAll stack pieces = some stack := by
  induction pieces with
  | nil => rfl
  | cons piece rest ih =>
      rw [readAll_cons, read_plain (h piece List.mem_cons_self), Option.bind_some]
      exact ih fun other hmem => h other (List.mem_cons_of_mem _ hmem)

theorem read_tagOpening (h : stack.head? ≠ some .tag) :
    read stack (tagMark '<') = some (.tag :: stack) := by
  cases stack with
  | nil => rfl
  | cons bracket outer =>
      cases bracket with
      | tag => exact absurd rfl h
      | subtree => rfl

theorem isBracket_of_isBlank {kind : Token.Kind} (h : kind.isBlank) : isBracket kind = false := by
  cases kind <;> first | rfl | contradiction

theorem isBracket_of_mem_kinds {kind : Token.Kind} (h : kind ∈ Expression.kinds) :
    isBracket kind = false := by
  cases kind <;> first | rfl | exact absurd h (by decide)

theorem readAll_blanks {blanks : List Piece} (h : Blanks blanks) :
    readAll stack blanks = some stack :=
  readAll_plain fun piece hmem => isBracket_of_isBlank (h piece hmem)

theorem readAll_inExpression {pieces : List Piece} (h : InExpression pieces) :
    readAll stack pieces = some stack :=
  readAll_plain fun piece hmem => isBracket_of_mem_kinds (h piece hmem)

theorem readAll_optional {kind : Token.Kind} {pieces : List Piece} (h : Optional kind pieces)
    (hkind : isBracket kind = false) : readAll stack pieces = some stack := by
  apply readAll_plain
  intro piece hmem
  rcases h with rfl | ⟨text, rfl⟩
  · cases hmem
  · rwa [List.mem_singleton.mp hmem]

theorem readAll_structuralMarkers {pieces : List Piece} (h : pieces ∈ structuralMarkers) :
    readAll stack pieces = some stack := by
  simp only [structuralMarkers, List.mem_cons, List.not_mem_nil, or_false] at h
  rcases h with rfl | rfl | rfl <;> rfl

theorem readAll_declarationMarkers {pieces : List Piece} (h : pieces ∈ declarationMarkers) :
    readAll stack pieces = some stack := by
  simp only [declarationMarkers, List.mem_cons, List.not_mem_nil, or_false] at h
  rcases h with rfl | rfl <;> rfl

theorem readAll_name {directive : Bool} {name : List Piece} (h : Name directive name) :
    readAll stack name = some stack := by
  cases h with
  | plain => rfl
  | binding hinner =>
      rw [readAll_cons, read_plain rfl, Option.bind_some, readAll_append,
        readAll_optional hinner rfl]
      rfl
  | marked hstructural hdeclaration hmarked hrest =>
      rw [readAll_append, readAll_append, readAll_structuralMarkers hstructural, Option.bind_some,
        readAll_declarationMarkers hdeclaration, Option.bind_some, readAll_optional hrest rfl]

theorem readAll_slash {pieces : List Piece} (h : pieces = [] ∨ pieces = [tagMark '/']) :
    readAll (.tag :: stack) pieces = some (.tag :: stack) := by
  rcases h with rfl | rfl <;> rfl

/-- A phrase closes all that it opens. -/
theorem readAll_phrase {symbol : Symbol} {pieces : List Piece} (h : Phrase symbol pieces)
    (hadmits : Admits symbol stack) : readAll stack pieces = some stack := by
  -- A phrase inside of a tag is read above the bracket of the tag, so the stack varies.
  induction h generalizing stack with
  | empty => rfl
  | blank hpiece hrest ih =>
      rw [readAll_cons, read_plain (isBracket_of_isBlank hpiece)]
      exact ih hadmits
  | word hrest ih =>
      rw [readAll_cons, read_plain rfl]
      exact ih hadmits
  | comment hrest ih =>
      rw [readAll_cons, read_plain rfl]
      exact ih hadmits
  | interpolation hbody hrest ih =>
      rw [readAll_cons, read_plain rfl, Option.bind_some, readAll_append,
        readAll_inExpression hbody, Option.bind_some, readAll_cons, read_plain rfl]
      exact ih hadmits
  | inTag htag hrest ihTag ihRest =>
      rw [readAll_append, ihTag hadmits]
      exact ihRest hadmits
  | closingTag hblanks hname =>
      rw [readAll_cons, read_tagOpening hadmits, Option.bind_some, readAll_append,
        readAll_blanks hblanks, Option.bind_some, readAll_cons]
      change readAll (.tag :: stack) _ = _
      rw [readAll_append, readAll_optional hname rfl]
      rfl
  | openingTag hblanks hentries hbefore hslash hafter ih =>
      rw [readAll_cons, read_tagOpening hadmits, Option.bind_some, readAll_append,
        readAll_blanks hblanks, Option.bind_some, readAll_cons, read_plain rfl, Option.bind_some]
      have hinside : Admits .attributes (.tag :: stack) := rfl
      have hclosed : readAll (.tag :: stack) [tagMark '>'] = some stack := rfl
      simp only [readAll_append, ih hinside, readAll_blanks hbefore, readAll_slash hslash,
        readAll_blanks hafter, hclosed, Option.bind_some]
  | noEntry => rfl
  | entries hblanks hentry hrest ihEntry ihRest =>
      rw [readAll_append, readAll_append, readAll_blanks hblanks, Option.bind_some,
        ihEntry hadmits]
      exact ihRest hadmits
  | flag hname hblanks =>
      rw [readAll_append, readAll_name hname, Option.bind_some, readAll_blanks hblanks]
  | valued hname hbefore hafter hvalue ih =>
      rw [readAll_append, readAll_append, readAll_name hname, Option.bind_some,
        readAll_blanks hbefore, Option.bind_some, readAll_cons, read_plain rfl, Option.bind_some,
        readAll_append, readAll_blanks hafter]
      exact ih hadmits
  | quoted hcontents =>
      rw [readAll_cons, read_plain rfl, Option.bind_some, readAll_append,
        readAll_optional hcontents rfl]
      rfl
  | quotedExpression hcontents =>
      rw [readAll_cons, read_plain rfl, Option.bind_some, readAll_append,
        readAll_inExpression hcontents]
      rfl
  | subtree hbody ih =>
      obtain ⟨outer, rfl⟩ := List.head?_eq_some_iff.mp hadmits
      rw [readAll_cons]
      change readAll (.subtree :: .tag :: outer) _ = _
      rw [readAll_append, ih (by simp [Admits])]
      rfl
  | literal => rfl
  | number => rfl

/-- The beginning of a sentence closes nothing that it has not opened. -/
theorem exists_readAll_of_sentence {pieces more : List Piece} (h : Sentence (pieces ++ more)) :
    ∃ stack, readAll [] pieces = some stack := by
  have hall : readAll [] (pieces ++ more) = some [] := readAll_phrase h nofun
  rw [readAll_append] at hall
  obtain ⟨stack, hstack, _⟩ := Option.bind_eq_some_iff.mp hall
  exact ⟨stack, hstack⟩

end Bracket

/-- Every interpolation among the tokens is there from its opening to its closing
brackets, with an expression between them. -/
inductive CompleteInterpolations : List Piece → Prop where
  | nil : CompleteInterpolations []
  | other {piece : Piece} {rest : List Piece} (hpiece : piece.1 ≠ .interpolation)
      (hrest : CompleteInterpolations rest) : CompleteInterpolations (piece :: rest)
  | interpolation {body rest : List Piece} (hbody : InExpression body)
      (hrest : CompleteInterpolations rest) :
      CompleteInterpolations (interpolationMark '{' :: (body ++ interpolationMark '}' :: rest))

namespace CompleteInterpolations

theorem append {first second : List Piece} (hfirst : CompleteInterpolations first)
    (hsecond : CompleteInterpolations second) : CompleteInterpolations (first ++ second) := by
  induction hfirst with
  | nil => exact hsecond
  | other hpiece _ ih => exact .other hpiece ih
  | interpolation hbody _ ih =>
      rw [List.cons_append, List.append_assoc]
      exact .interpolation hbody ih

theorem of_forall {pieces : List Piece} (h : ∀ piece ∈ pieces, piece.1 ≠ .interpolation) :
    CompleteInterpolations pieces := by
  induction pieces with
  | nil => exact .nil
  | cons piece rest ih =>
      exact .other (h piece List.mem_cons_self)
        (ih fun other hmem => h other (List.mem_cons_of_mem _ hmem))

theorem of_lexemes {lexemes : List Lexeme} (h : ∀ lexeme ∈ lexemes, lexeme.kind ≠ .interpolation) :
    CompleteInterpolations (Lexeme.piecesOf lexemes) := by
  apply of_forall
  intro piece hmem
  obtain ⟨lexeme, hlexeme, hkind⟩ := Lexeme.kind_of_mem_piecesOf hmem
  rw [hkind]
  exact h lexeme hlexeme

open Markup in
/-- A fragment of markup is an interpolation from end to end, or has no part in one. -/
theorem of_isMarkup {fragment : Fragment} (h : fragment.IsMarkup) :
    CompleteInterpolations (Lexeme.piecesOf fragment.lexemes) := by
  by_cases hkinds : .interpolation ∈ fragment.kinds
  · obtain ⟨body, rfl⟩ := h.eq_interpolation hkinds
    rw [Fragment.piecesOf_interpolation]
    exact .interpolation (Fragment.piecesOf_expression body) .nil
  · apply of_lexemes
    intro lexeme hmem hkind
    exact hkinds (hkind ▸ Fragment.kind_mem_kinds hmem)

open Markup in
theorem of_forall_isMarkup {fragments : List Fragment}
    (h : ∀ fragment ∈ fragments, fragment.IsMarkup) :
    CompleteInterpolations (Fragment.piecesOf fragments) := by
  induction fragments with
  | nil => exact .nil
  | cons fragment rest ih =>
      rw [Fragment.piecesOf_cons]
      exact (of_isMarkup (h fragment List.mem_cons_self)).append
        (ih fun other hmem => h other (List.mem_cons_of_mem _ hmem))

/-- So the brackets of interpolations open and close in turn. -/
theorem exists_replicate {pieces : List Piece} (h : CompleteInterpolations pieces) :
    ∃ count, pieces.filter (·.1 == .interpolation) =
      (List.replicate count [interpolationMark '{', interpolationMark '}']).flatten := by
  induction h with
  | nil => exact ⟨0, rfl⟩
  | other hpiece _ ih =>
      obtain ⟨count, hcount⟩ := ih
      exact ⟨count, by rw [List.filter_cons_of_neg (by simpa using hpiece), hcount]⟩
  | @interpolation body rest hbody _ ih =>
      obtain ⟨count, hcount⟩ := ih
      -- No bracket of an interpolation stands inside of one.
      have hnone : body.filter (·.1 == .interpolation) = [] := by
        apply List.filter_eq_nil_iff.mpr
        intro piece hmem hkind
        have hkinds := hbody piece hmem
        rw [eq_of_beq hkind] at hkinds
        exact absurd hkinds (by decide)
      refine ⟨count + 1, ?_⟩
      rw [List.filter_cons_of_pos rfl, List.filter_append, hnone, List.nil_append,
        List.filter_cons_of_pos rfl, hcount, List.replicate_succ, List.flatten_cons]
      rfl

end CompleteInterpolations

/-- The kinds and texts of the tokens of an input. -/
def Lexed.pieces (lexed : Lexed) : List Piece := lexed.tokens.map Token.piece

theorem pieces_lexMarkup (lenient : Bool) (input : List Char) :
    (lexMarkup lenient input).pieces =
      Markup.Fragment.piecesOf (Markup.run lenient (.content 0) input).1 := by
  rw [Lexed.pieces, lexMarkup_tokens, Lexeme.map_piece_placeAll]
  rfl

/-- The tokens of markup are a sentence, or the beginning of one if the input is
refused. So tags and subtrees are nested in turn, and interpolations are complete. -/
theorem lex_sentence (lenient : Bool) (input : String) :
    ((lex { lenient } input).error = none → Sentence (lex { lenient } input).pieces) ∧
      (∃ more, Sentence ((lex { lenient } input).pieces ++ more)) ∧
      (∃ stack, Bracket.readAll [] (lex { lenient } input).pieces = some stack ∧
        ((lex { lenient } input).error = none → stack = [])) ∧
      CompleteInterpolations (lex { lenient } input).pieces ∧
      ∃ count, (lex { lenient } input).pieces.filter (·.1 == .interpolation) =
        (List.replicate count [interpolationMark '{', interpolationMark '}']).flatten := by
  have hlex : lex { lenient } input = lexMarkup lenient input.toList := rfl
  rw [hlex]
  obtain ⟨more, hmore, hnone⟩ := Markup.exists_sentence_of_run lenient input.toList
  rw [← pieces_lexMarkup] at hmore
  have hsentence : (lexMarkup lenient input.toList).error = none →
      Sentence (lexMarkup lenient input.toList).pieces := fun herror => by
    rwa [hnone (Option.map_eq_none_iff.mp herror), List.append_nil] at hmore
  have hcomplete : CompleteInterpolations (lexMarkup lenient input.toList).pieces := by
    rw [pieces_lexMarkup]
    exact .of_forall_isMarkup (Markup.run_isMarkup lenient _ _)
  obtain ⟨stack, hstack⟩ := Bracket.exists_readAll_of_sentence hmore
  refine ⟨hsentence, ⟨more, hmore⟩, ⟨stack, hstack, fun herror => ?_⟩, hcomplete,
    hcomplete.exists_replicate⟩
  have hclosed : Bracket.readAll [] (lexMarkup lenient input.toList).pieces = some [] :=
    Bracket.readAll_phrase (hsentence herror) nofun
  rw [hstack] at hclosed
  exact Option.some.inj hclosed

end TemplateLexer
