import TemplateLexer.Proofs.Concatenation

/-! # The inside of a subtree

What stands between the brackets of a subtree is lexed as a template of its own
under the strict rules. Inside of a subtree the lexer only moves between states
that are deeper than the tag around it, and what it does there does not depend on
how deep they are. The closing bracket ends whatever the end of the input would
have ended.
-/

namespace TemplateLexer

open Sentence

namespace Subtree

/-- Reads a token where this number of subtrees is open. The result is how many are open behind
it, or nothing if it closes one that is not open. -/
def read (depth : Nat) (piece : Piece) : Option Nat :=
  if piece = brace '{' then some (depth + 1)
  else if piece = brace '}' then
    match depth with
    | 0 => none
    | outer + 1 => some outer
  else some depth

/-- The number of subtrees that are open behind a list of tokens. -/
def depthAfter (depth : Nat) (pieces : List Piece) : Option Nat := pieces.foldlM read depth

theorem depthAfter_append (depth : Nat) (first second : List Piece) :
    depthAfter depth (first ++ second) =
      (depthAfter depth first).bind fun middle => depthAfter middle second :=
  List.foldlM_append

theorem depthAfter_plain {pieces : List Piece} (h : ∀ piece ∈ pieces, piece.1 ≠ .subtreeBrace)
    (depth : Nat) : depthAfter depth pieces = some depth := by
  induction pieces with
  | nil => rfl
  | cons piece rest ih =>
      have hplain : ∀ c, piece ≠ brace c := by
        rintro c rfl
        exact h _ List.mem_cons_self rfl
      have hread : read depth piece = some depth := by
        unfold read
        rw [if_neg (hplain '{'), if_neg (hplain '}')]
      rw [depthAfter, List.foldlM_cons, hread]
      exact ih fun other hmem => h other (List.mem_cons_of_mem _ hmem)

end Subtree

namespace Markup

/-- The number of subtrees that are open in a state. -/
def State.depth : State → Nat
  | .content depth | .tag depth | .tagEnd depth | .value _ depth => depth

/-- The state with fewer subtrees open around it. -/
def State.lower (count : Nat) : State → State
  | .content depth => .content (depth - count)
  | .tag depth => .tag (depth - count)
  | .tagEnd depth => .tagEnd (depth - count)
  | .value name depth => .value name (depth - count)

variable {lenient : Bool} {state next last : State} {text rest unread : List Char}
  {emitted fragments : List Fragment} {failure : Failure}

/-- Fragments without brackets of subtrees have no such lexemes. -/
theorem Fragment.kind_ne_subtreeBrace {lexeme : Lexeme}
    (h : ∀ fragment ∈ fragments, .subtreeBrace ∉ fragment.kinds)
    (hmem : lexeme ∈ fragments.flatMap Fragment.lexemes) : lexeme.kind ≠ .subtreeBrace := by
  intro hkind
  obtain ⟨fragment, hfragment, hlexeme⟩ := List.mem_flatMap.mp hmem
  exact h fragment hfragment (hkind ▸ Fragment.kind_mem_kinds hlexeme)

/-- A production opens a subtree, closes one, or emits no bracket of a subtree. -/
theorem Advance.subtree_cases (h : Advance lenient state text emitted next rest) :
    (emitted = [.subtreeBrace '{'] ∧ text = '{' :: rest ∧
        ∃ name depth, state = .value name depth ∧ next = .content (depth + 1)) ∨
      (emitted = [.subtreeBrace '}'] ∧ text = '}' :: rest ∧
        ∃ depth, state = .content (depth + 1) ∧ next = .tag depth) ∨
      (next.depth = state.depth ∧ ∀ fragment ∈ emitted, .subtreeBrace ∉ fragment.kinds) := by
  cases h with
  | @subtree name depth rest => exact .inl ⟨rfl, rfl, name, depth, rfl, rfl⟩
  | @subtreeEnd depth rest => exact .inr (.inl ⟨rfl, rfl, depth, rfl, rfl⟩)
  | @bareValue name depth value source rest =>
      refine .inr (.inr ⟨rfl, ?_⟩)
      cases value <;> simp [Fragment.kinds, BareValue.kind]
  | tagEnd hstate =>
      refine .inr (.inr ⟨?_, by simp [Fragment.kinds, Fragment.tagPunctuation]⟩)
      rcases hstate with rfl | rfl <;> rfl
  | _ =>
      exact .inr (.inr ⟨rfl, by simp [Fragment.kinds, Fragment.tagPunctuation, Fragment.equals,
        Expression.kinds, AttributeName.kinds]⟩)

/-- The subtrees that are open behind a production are those that its tokens leave open. -/
theorem Advance.depth_eq {count inner outer : Nat}
    (h : Advance lenient state text emitted next rest) (hstate : state.depth = inner + count)
    (hdepth : Subtree.depthAfter inner (Fragment.piecesOf emitted) = some outer) :
    next.depth = outer + count := by
  rcases h.subtree_cases with ⟨rfl, _, name, depth, rfl, rfl⟩ | ⟨rfl, _, depth, rfl, rfl⟩ |
    ⟨hsame, hkinds⟩
  · obtain rfl : inner + 1 = outer := Option.some.inj hdepth
    simp only [State.depth] at hstate ⊢
    omega
  · cases inner with
    | zero => cases hdepth
    | succ inner =>
        obtain rfl : inner = outer := Option.some.inj hdepth
        simp only [State.depth] at hstate ⊢
        omega
  · have hplain : ∀ piece ∈ Fragment.piecesOf emitted, piece.1 ≠ .subtreeBrace := by
      intro piece hpiece hkind
      obtain ⟨lexeme, hlexeme, heq⟩ := Lexeme.kind_of_mem_piecesOf hpiece
      exact Fragment.kind_ne_subtreeBrace hkinds hlexeme (heq.symm.trans hkind)
    rw [Subtree.depthAfter_plain hplain, Option.some.injEq] at hdepth
    rw [hsame, hstate, hdepth]

/-- What is refused has emitted no bracket of a subtree. -/
theorem Refusal.subtreeBrace_not_mem (h : Refusal lenient state text emitted failure) :
    ∀ fragment ∈ emitted, .subtreeBrace ∉ fragment.kinds := by
  cases h <;> simp [Fragment.kinds, AttributeName.kinds]

/-- A production reads the same with some of the subtrees around it taken away, as long as it stays
inside of them. The rules that are left are strict, as they are inside of every subtree. -/
theorem Advance.lower {count : Nat} (h : Advance lenient state text emitted next rest)
    (hcount : 0 < count) (hstate : count ≤ state.depth) (hnext : count ≤ next.depth) :
    Advance false (state.lower count) text emitted (next.lower count) rest := by
  have hcloses : ∀ depth, count ≤ depth →
      Step.curlyCloses false (depth - count) = Step.curlyCloses lenient depth := by
    intro depth hdepth
    have hpos : depth ≠ 0 := by omega
    simp [Step.curlyCloses, hpos]
  cases h with
  | @word depth word rest hne hword =>
      refine .word hne ?_
      rwa [hcloses depth hstate]
  | @subtreeEnd depth rest =>
      have hdepth : depth + 1 - count = depth - count + 1 := Nat.succ_sub hnext
      rw [State.lower, State.lower, hdepth]
      exact .subtreeEnd
  | @subtree name depth rest =>
      have hdepth : depth + 1 - count = depth - count + 1 := Nat.succ_sub hstate
      rw [State.lower, State.lower, hdepth]
      exact .subtree
  | tagEnd hstate =>
      refine .tagEnd ?_
      rcases hstate with rfl | rfl
      · exact .inl rfl
      · exact .inr rfl
  | _ => constructor <;> assumption

/-- So does a whole trace that closes none of these subtrees. -/
theorem Trace.lower {count inner outer : Nat}
    (h : Trace lenient state text fragments last unread) (hcount : 0 < count)
    (hstate : state.depth = inner + count)
    (hdepth : Subtree.depthAfter inner (Fragment.piecesOf fragments) = some outer) :
    last.depth = outer + count ∧
      Trace false (state.lower count) text fragments (last.lower count) unread := by
  induction h generalizing inner with
  | refl =>
      obtain rfl : inner = outer := Option.some.inj hdepth
      exact ⟨hstate, .refl⟩
  | @step state next last text rest unread emitted fragments hstep _ ih =>
      rw [Fragment.piecesOf_append, Subtree.depthAfter_append, Option.bind_eq_some_iff] at hdepth
      obtain ⟨middle, hmiddle, hrest⟩ := hdepth
      have hnext : next.depth = middle + count := hstep.depth_eq hstate hmiddle
      obtain ⟨hlast, htail⟩ := ih hnext hrest
      exact ⟨hlast, .step (hstep.lower hcount (by omega) (by omega)) htail⟩

/-- A run emits these lexemes, then a bracket of a subtree, and goes on from this point. -/
inductive ComesToBracket (lenient : Bool) (state : State) (text : List Char) :
    List Lexeme → Char → State → List Char → Prop where
  | intro {before : List Fragment} {middle next : State} {between rest : List Char} {c : Char}
      (htrace : Trace lenient state text before middle between)
      (hbracket : Advance lenient middle between [.subtreeBrace c] next rest) :
      ComesToBracket lenient state text (before.flatMap Fragment.lexemes) c next rest

/-- A production that emits a bracket of a subtree emits nothing else. -/
theorem Advance.eq_of_subtreeBrace_mem (h : Advance lenient state text emitted next rest)
    {bracket : Lexeme} {c : Char} (hbracket : (bracket.kind, bracket.text) = brace c)
    (hmem : bracket ∈ emitted.flatMap Fragment.lexemes) :
    emitted = [.subtreeBrace c] ∧ bracket = { kind := .subtreeBrace, source := [c] } := by
  obtain ⟨hkind, htext⟩ := Prod.mk.inj hbracket
  obtain ⟨d, rfl⟩ : ∃ d, emitted = [.subtreeBrace d] := by
    rcases h.subtree_cases with ⟨hopening, _⟩ | ⟨hclosing, _⟩ | ⟨_, hkinds⟩
    · exact ⟨'{', hopening⟩
    · exact ⟨'}', hclosing⟩
    · exact absurd hkind (Fragment.kind_ne_subtreeBrace hkinds hmem)
  obtain rfl : bracket = { kind := .subtreeBrace, source := [d] } := List.mem_singleton.mp hmem
  obtain rfl : d = c := List.singleton_inj.mp htext
  exact ⟨rfl, rfl⟩

/-- A run comes to every bracket of a subtree that it emits. -/
theorem exists_comesToBracket {first later : List Lexeme} {bracket : Lexeme} {c : Char}
    (hbracket : (bracket.kind, bracket.text) = brace c)
    (h : (runLexemes lenient state text).1 = first ++ bracket :: later) :
    bracket = { kind := .subtreeBrace, source := [c] } ∧
      ∃ next rest, ComesToBracket lenient state text first c next rest := by
  obtain ⟨before, fragment, after, inner, outer, hrun, hfragment, rfl, _⟩ :=
    Fragment.exists_of_flatMap_lexemes h
  obtain ⟨front, last, unread, emitted, others, behind, htrace, rfl, hemitted, hends⟩ :=
    exists_of_run_eq hrun
  have hmem : bracket ∈ emitted.flatMap Fragment.lexemes := by
    rw [hemitted, List.flatMap_append, List.flatMap_cons, hfragment]
    simp
  rcases hends with ⟨next, rest, hadvance⟩ | ⟨failure, hrefusal⟩
  · obtain ⟨rfl, hsource⟩ := hadvance.eq_of_subtreeBrace_mem hbracket hmem
    obtain ⟨rfl, rfl, rfl⟩ : others = [] ∧ fragment = .subtreeBrace c ∧ behind = [] := by
      simpa [List.singleton_eq_append_iff] using hemitted
    obtain ⟨rfl, _, rfl⟩ : inner = [] ∧ bracket = { kind := .subtreeBrace, source := [c] } ∧
        outer = [] := by
      simpa [Fragment.subtreeBrace, Fragment.lexemes, List.singleton_eq_append_iff] using hfragment
    rw [List.append_nil, List.append_nil]
    exact ⟨hsource, next, rest, .intro htrace hadvance⟩
  · exact absurd (Prod.mk.inj hbracket).1
      (Fragment.kind_ne_subtreeBrace hrefusal.subtreeBrace_not_mem hmem)

/-- What a run emits behind a bracket is what a run from there emits. -/
theorem ComesToBracket.runLexemes_eq {first : List Lexeme} {c : Char}
    (h : ComesToBracket lenient state text first c next rest) :
    (runLexemes lenient state text).1 =
      first ++ { kind := .subtreeBrace, source := [c] } :: (runLexemes lenient next rest).1 := by
  cases h with
  | intro htrace hbracket =>
      rw [htrace.reads, Reads.of_advance hbracket]
      rfl

theorem Advance.subtreeOpening (h : Advance lenient state text [.subtreeBrace '{'] next rest) :
    text = '{' :: rest ∧ ∃ depth, next = .content (depth + 1) := by
  rcases h.subtree_cases with ⟨_, htext, _, depth, _, hnext⟩ | ⟨hclosing, _⟩ | ⟨_, hkinds⟩
  · exact ⟨htext, depth, hnext⟩
  · exact absurd hclosing (by decide)
  · exact absurd List.mem_cons_self (hkinds _ List.mem_cons_self)

theorem Advance.subtreeClosing (h : Advance lenient state text [.subtreeBrace '}'] next rest) :
    text = '}' :: rest ∧ ∃ depth, state = .content (depth + 1) := by
  rcases h.subtree_cases with ⟨hopening, _⟩ | ⟨_, htext, depth, hstate, _⟩ | ⟨_, hkinds⟩
  · exact absurd hopening (by decide)
  · exact ⟨htext, depth, hstate⟩
  · exact absurd List.mem_cons_self (hkinds _ List.mem_cons_self)

/-- What a trace reads before a closing bracket, outside of all subtrees, is a text of its own. -/
theorem Trace.run_eq_of_closing
    (h : Trace false (.content 0) text fragments (.content 0) ('}' :: rest)) :
    run false (.content 0) (Fragment.sourceOf fragments) = (fragments, none) := by
  have hcut := h.cut List.nil_prefix fun _ => rfl
  rw [List.append_nil] at hcut
  rw [hcut.run_eq, run_finished, List.append_nil]

/-- The inside of a subtree is a text of its own. -/
theorem exists_subtree {first inside later : List Lexeme} {opening closing : Lexeme}
    (h : (runLexemes lenient state text).1 = first ++ opening :: (inside ++ closing :: later))
    (hopening : (opening.kind, opening.text) = brace '{')
    (hclosing : (closing.kind, closing.text) = brace '}')
    (hdepth : Subtree.depthAfter 0 (Lexeme.piecesOf inside) = some 0) :
    opening = { kind := .subtreeBrace, source := ['{'] } ∧
      closing = { kind := .subtreeBrace, source := ['}'] } ∧
      (∃ rest, text = Lexeme.sourceOf first ++ '{' :: (Lexeme.sourceOf inside ++ '}' :: rest)) ∧
      runLexemes false (.content 0) (Lexeme.sourceOf inside) = (inside, none) := by
  obtain ⟨rfl, next, rest, hcomes⟩ := exists_comesToBracket hopening h
  rw [hcomes.runLexemes_eq, List.append_cancel_left_eq, List.cons_inj_right] at h
  obtain ⟨rfl, last, unread, hleaves⟩ := exists_comesToBracket hclosing h
  cases hcomes with
  | @intro before _ _ between _ _ hbefore hopened =>
  cases hleaves with
  | @intro body middle _ behind _ _ hbody hclosed =>
  obtain ⟨rfl, depth, rfl⟩ := hopened.subtreeOpening
  obtain ⟨rfl, outer, rfl⟩ := hclosed.subtreeClosing
  obtain ⟨hlast, hstrict⟩ := hbody.lower (Nat.succ_pos depth) (Nat.zero_add _).symm hdepth
  have hdepths : outer + 1 = depth + 1 := hlast.trans (Nat.zero_add _)
  rw [State.lower, State.lower, hdepths, Nat.sub_self] at hstrict
  have hsource := Fragment.sourceOf_flatMap_lexemes body
  refine ⟨rfl, rfl, ⟨unread, ?_⟩, ?_⟩
  · rw [Fragment.sourceOf_flatMap_lexemes, hsource, hbefore.text_eq, hbody.text_eq]
  · rw [hsource, runLexemes, hstrict.run_eq_of_closing]

end Markup

/-- The inside of a subtree is a template of its own, which the strict rules accept, whichever
rules the subtree was read under and whatever is wrong with the input behind it. -/
theorem lex_subtree (lenient : Bool) (input : String) {before inside behind : List Token}
    {opening closing : Token}
    (htokens : (lex { lenient } input).tokens =
      before ++ opening :: (inside ++ closing :: behind))
    (hopening : opening.piece = brace '{') (hclosing : closing.piece = brace '}')
    (hinside : Subtree.depthAfter 0 (inside.map Token.piece) = some 0) :
    opening.span.stop = opening.span.start + 1 ∧ closing.span.stop = closing.span.start + 1 ∧
      ∃ tokens,
        lexStrict (.ofList (Span.cut ⟨opening.span.stop, closing.span.start⟩ input.toList)) =
          .ok tokens ∧
        tokens.map (Token.shift opening.span.stop) = inside := by
  rw [lex_markup, lexMarkup_tokens] at htokens
  obtain ⟨first, opening, later, hlexemes, rfl, rfl, hrest⟩ := Lexeme.exists_of_placeAll_eq htokens
  obtain ⟨body, closing, later, rfl, rfl, rfl, rfl⟩ := Lexeme.exists_of_placeAll_eq hrest.symm
  rw [Lexeme.piece_place] at hopening hclosing
  rw [Lexeme.map_piece_placeAll] at hinside
  obtain ⟨rfl, rfl, ⟨rest, htext⟩, hbody⟩ :=
    Markup.exists_subtree hlexemes hopening hclosing hinside
  refine ⟨rfl, rfl, Lexeme.placeAll 0 body, ?_, (Lexeme.placeAll_add _ 0 body).symm⟩
  have hinput : input.toList =
      (Lexeme.sourceOf first ++ ['{']) ++ (Lexeme.sourceOf body ++ '}' :: rest) := by
    rw [htext, List.append_assoc, List.singleton_append]
  have hcut := Span.cut_append (Lexeme.sourceOf first ++ ['{']) (Lexeme.sourceOf body) ('}' :: rest)
  rw [← hinput, List.length_append, List.length_singleton] at hcut
  rw [Nat.zero_add]
  dsimp only [Lexeme.place, List.length_singleton]
  rw [hcut, lexStrict, lex_markup, String.toList_ofList, lexMarkup_of_runLexemes hbody]
  rfl

/-- A subtree with another one and an escaped bracket in it, in an input that is refused. -/
theorem lex_subtree_nested :
    (lex { lenient := true } "<a b=\x7b<c d=\x7be\x7d>\\\x7d\x7d/>\x7d<").isOk = false ∧
      ∃ tokens, lexStrict "<c d=\x7be\x7d>\\\x7d" = .ok tokens ∧ tokens.map (Token.shift 6) =
        ((lex { lenient := true } "<a b=\x7b<c d=\x7be\x7d>\\\x7d\x7d/>\x7d<").tokens.drop 6).take
          10 := by
  have htokens : (lex { lenient := true } "<a b=\x7b<c d=\x7be\x7d>\\\x7d\x7d/>\x7d<").tokens =
      (lex { lenient := true } "<a b=\x7b<c d=\x7be\x7d>\\\x7d\x7d/>\x7d<").tokens.take 5 ++
      ⟨.subtreeBrace, "\x7b", ⟨5, 6⟩⟩ ::
        (((lex { lenient := true } "<a b=\x7b<c d=\x7be\x7d>\\\x7d\x7d/>\x7d<").tokens.drop 6).take
          10 ++
        ⟨.subtreeBrace, "\x7d", ⟨17, 18⟩⟩ ::
          (lex { lenient := true } "<a b=\x7b<c d=\x7be\x7d>\\\x7d\x7d/>\x7d<").tokens.drop
            17) := by
    decide +kernel
  have hcut : String.ofList (Span.cut ⟨6, 17⟩ "<a b=\x7b<c d=\x7be\x7d>\\\x7d\x7d/>\x7d<".toList) =
      "<c d=\x7be\x7d>\\\x7d" := by
    decide +kernel
  rw [← hcut]
  exact ⟨by decide +kernel,
    (lex_subtree true _ htokens (by decide) (by decide) (by decide +kernel)).2.2⟩

end TemplateLexer
