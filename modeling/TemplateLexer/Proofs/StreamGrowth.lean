import Mathlib.Data.List.SplitBy
import TemplateLexer.Proofs.Tiling

/-! # Growth of token streams

A stream grows at its end, by any fragments in any order and not only by those that a template is
read as. Its tokens always lead from the beginning to its offset, and a fragment moves the offset
by the characters that it stands for. The new tokens say these characters again, but for text,
where they say what its words mean.
-/

namespace TemplateLexer

namespace Token

theorem Tile.append {start middle stop : Nat} {first second : List Token}
    (hfirst : Tile start first middle) (hsecond : Tile middle second stop) :
    Tile start (first ++ second) stop := by
  induction hfirst with
  | nil => exact hsecond
  | cons hne _ ih => exact .cons hne (ih hsecond)

end Token

namespace Markup.Text

/-- Whether two neighbouring characters of a text are in one word. -/
def inOneWord (first second : Char) : Bool := !isBlank first && !isBlank second

/-- The token of a piece of text: a blank, or a word with its meaning. -/
inductive IsTokenOf : Token → List Char → Prop where
  | blank {c : Char} {start : Nat} (hc : isBlank c) :
      IsTokenOf ⟨if c = '\t' then .tab else .whitespace, .ofList [c], ⟨start, start + 1⟩⟩ [c]
  | word {word text : List Char} {start : Nat} (hword : ∀ c ∈ word, isBlank c = false)
      (htext : Means word text) :
      IsTokenOf ⟨.text, .ofList text, ⟨start, start + word.length⟩⟩ word

section Pieces

variable {c : Char} {word rest : List Char}

theorem splitBy_blank (hblank : isBlank c) (rest : List Char) :
    (c :: rest).splitBy inOneWord = [c] :: rest.splitBy inOneWord := by
  have happend : ([c] ++ rest).splitBy inOneWord =
      [c].splitBy inOneWord ++ rest.splitBy inOneWord := by
    apply List.splitBy_append
    simp [inOneWord, hblank]
  rw [List.singleton_append] at happend
  rw [happend, List.splitBy_of_isChain (List.cons_ne_nil c []) (.singleton c),
    List.singleton_append]

/-- A word ends in front of a blank, or where its text does. -/
theorem splitBy_word (hne : word ≠ []) (hword : ∀ c ∈ word, isBlank c = false)
    (hrest : Stops (!isBlank ·) rest) :
    (word ++ rest).splitBy inOneWord = word :: rest.splitBy inOneWord := by
  have hchain : word.IsChain fun first second => inOneWord first second := by
    apply (List.pairwise_of_forall_mem_list _).isChain
    intro first hfirst second hsecond
    simp [inOneWord, hword first hfirst, hword second hsecond]
  rw [List.splitBy_append, List.splitBy_of_isChain hne hchain, List.singleton_append]
  intro last _ first hfirst
  have hstops : (!isBlank first) = false := hrest first hfirst
  rw [inOneWord, hstops, Bool.and_false]

/-- A text becomes its blanks and the longest words between them. -/
theorem isTokenOf_placeAll (raw : List Char) (offset : Nat) :
    List.Forall₂ IsTokenOf (Lexeme.placeAll offset (lexemes raw)) (raw.splitBy inOneWord) := by
  fun_induction lexemes raw generalizing offset with
  | case1 => exact .nil
  | case2 c rest hblank ih =>
      rw [Lexeme.placeAll_cons (List.cons_ne_nil c []), splitBy_blank hblank]
      refine .cons ?_ (ih _)
      simpa [Lexeme.place, Lexeme.blank] using IsTokenOf.blank hblank
  | case3 c rest hblank ih =>
      have hword : ∀ d ∈ c :: rest.takeWhile (!isBlank ·), isBlank d = false := by
        intro d hd
        rcases List.mem_cons.mp hd with rfl | htail
        · simpa using hblank
        · simpa using List.mem_takeWhile_imp htail
      have hsplit := splitBy_word (List.cons_ne_nil _ _) hword (stops_dropWhile (!isBlank ·) rest)
      rw [List.cons_append, List.takeWhile_append_dropWhile] at hsplit
      rw [wordLexeme, Lexeme.placeAll_cons (List.cons_ne_nil _ _), hsplit]
      exact .cons (.word hword (means_iff.mpr rfl)) (ih _)

end Pieces

end Markup.Text

namespace Markup.Fragment

/-- The number of characters that a fragment stands for. -/
def covered : Fragment → Nat
  | .token _ source | .expression source => source.length
  | .blanks run => run.length
  | .text raw => raw.length
  | .interpolation body => body.length + 4
  | .attributeName name => name.length
  | .quotedValue contents _ => contents.length + 2

example : equals.covered = 1 := rfl

/-- What the tokens of a fragment say: what its text means, or else its characters again. -/
def IsSaidBy (tokens : List Token) : Fragment → Prop
  | .text raw => List.Forall₂ Text.IsTokenOf tokens (raw.splitBy Text.inOneWord)
  | fragment => tokens.flatMap (·.text.toList) = fragment.source

theorem length_source (fragment : Fragment) : fragment.source.length = fragment.covered := by
  cases fragment <;> simp [source, covered, interpolationOpening, interpolationClosing]

variable {fragment : Fragment}

theorem isSaidBy_iff (htext : ∀ raw, fragment ≠ .text raw) {tokens : List Token} :
    fragment.IsSaidBy tokens ↔ tokens.flatMap (·.text.toList) = fragment.source := by
  cases fragment with
  | text raw => exact absurd rfl (htext raw)
  | _ => simp only [IsSaidBy]

theorem text_ne_nil_of_mem_lexemes {lexeme : Lexeme} (h : lexeme ∈ fragment.lexemes)
    (hne : lexeme.source ≠ []) : lexeme.text ≠ [] := by
  by_cases htext : ∃ raw, fragment = .text raw
  · obtain ⟨raw, rfl⟩ := htext
    rcases Text.exists_of_mem_lexemes h with ⟨c, rfl⟩ | ⟨word, rfl⟩
    · exact hne
    · exact Text.unescape_ne_nil hne
  · rwa [text_eq_source_of_mem_lexemes (not_exists.mp htext) h]

theorem isSaidBy_placeAll (fragment : Fragment) (offset : Nat) :
    fragment.IsSaidBy (Lexeme.placeAll offset fragment.lexemes) := by
  by_cases htext : ∃ raw, fragment = .text raw
  · obtain ⟨raw, rfl⟩ := htext
    exact Text.isTokenOf_placeAll raw offset
  · rw [not_exists] at htext
    have hsource : ∀ lexeme ∈ fragment.lexemes, lexeme.text = lexeme.source :=
      fun _ => text_eq_source_of_mem_lexemes htext
    rw [isSaidBy_iff htext, Lexeme.flatMap_text_placeAll hsource, sourceOf_lexemes]

theorem text_ne_of_mem_placeAll (fragment : Fragment) {offset : Nat} {token : Token}
    (h : token ∈ Lexeme.placeAll offset fragment.lexemes) : token.text ≠ "" := by
  obtain ⟨lexeme, hlexeme, hne, position, rfl⟩ := Lexeme.exists_of_mem_placeAll h
  intro hempty
  apply text_ne_nil_of_mem_lexemes hlexeme hne
  simpa [Lexeme.place] using hempty

end Markup.Fragment

namespace TokenStream

open Markup

/-- The tokens of a stream lead from the beginning to its offset, and all of them say something. -/
structure IsValid (stream : TokenStream) : Prop where
  tile : Token.Tile 0 stream.tokens stream.offset
  text_ne : ∀ token ∈ stream.tokens, token.text ≠ ""

/-- A stream goes on with the tokens of a fragment. -/
structure Continues (before : TokenStream) (fragment : Fragment) (added : List Token)
    (after : TokenStream) : Prop where
  tokens_eq : after.tokens = before.tokens ++ added
  offset_eq : after.offset = before.offset + fragment.covered
  tile : Token.Tile before.offset added after.offset
  isSaidBy : fragment.IsSaidBy added

variable {stream : TokenStream}

theorem isValid_empty : IsValid {} := ⟨.nil, by simp⟩

theorem emit_continues (stream : TokenStream) (fragment : Fragment) :
    stream.Continues fragment (Lexeme.placeAll stream.offset fragment.lexemes)
      (stream.emit fragment) where
  tokens_eq := by rw [emit, append]
  offset_eq := by rw [emit, append, Fragment.sourceOf_lexemes, Fragment.length_source]
  tile := Lexeme.tile_placeAll fragment.lexemes stream.offset
  isSaidBy := fragment.isSaidBy_placeAll stream.offset

/-- Every fragment keeps a stream valid. -/
theorem IsValid.emit (h : stream.IsValid) (fragment : Fragment) :
    (stream.emit fragment).IsValid := by
  have hcontinues := stream.emit_continues fragment
  constructor
  · rw [hcontinues.tokens_eq]
    exact h.tile.append hcontinues.tile
  · rw [hcontinues.tokens_eq, List.forall_mem_append]
    exact ⟨h.text_ne, fun token => fragment.text_ne_of_mem_placeAll⟩

theorem IsValid.foldl_emit (h : stream.IsValid) (fragments : List Fragment) :
    (fragments.foldl TokenStream.emit stream).IsValid := by
  induction fragments generalizing stream with
  | nil => exact h
  | cons fragment rest ih => exact ih (h.emit fragment)

theorem IsValid.offset_eq (h : stream.IsValid) :
    stream.offset = stream.tokens.getLast?.elim 0 (·.span.stop) := by
  rw [h.tile.stop_eq]
  cases stream.tokens.getLast? <;> simp

/-- Behind any fragments a stream is valid, its offset is the end of its last token, and what is
emitted later leaves its tokens alone. The next fragment moves the offset by the characters that it
stands for, and its tokens lead there and say what it means. -/
theorem foldl_emit_continues (fragments : List Fragment) :
    let stream := fragments.foldl emit {}
    stream.IsValid ∧
      stream.offset = stream.tokens.getLast?.elim 0 (·.span.stop) ∧
      (∀ later, stream.tokens <+: (List.foldl emit stream later).tokens) ∧
      ∀ fragment, ∃ added, stream.Continues fragment added (stream.emit fragment) := by
  intro stream
  have hvalid : stream.IsValid := isValid_empty.foldl_emit fragments
  refine ⟨hvalid, hvalid.offset_eq, fun later => ?_, fun fragment => ?_⟩
  · rw [TokenStream.foldl_emit]
    exact List.prefix_append _ _
  · exact ⟨_, stream.emit_continues fragment⟩

end TokenStream

end TemplateLexer
