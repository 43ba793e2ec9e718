import Mathlib.Order.Bounds.Basic
import TemplateLexer.Proofs.Reached

/-! # Where comments are recognized

A `<` begins a comment if blanks and the name of a comment come behind it and an end of a comment
follows anywhere behind that name. The first such end is the end of the comment. Without one the
lexer has looked ahead for nothing, and the name is that of an opening tag like any other name.
-/

namespace TemplateLexer

namespace Markup

variable {lenient : Bool} {input blanks name : List Char} {depth start stop mark : Nat}

/-- Behind a `<` at a position stand blanks and a name, and no further character of a name at the
position behind it. -/
structure NamedAt (input : List Char) (start : Nat) (blanks name : List Char) (stop : Nat) :
    Prop where
  text_eq : input.drop start = '<' :: (blanks ++ (name ++ input.drop stop))
  allBlank : AllBlank blanks
  allName : AllName name
  stops : ∀ c ∈ input[stop]?, isNameChar c = false
  stop_le : stop ≤ input.length

/-- An end of a comment stands at a position, and not in front of another one. -/
def EndsAt (input : List Char) (stop mark : Nat) : Prop :=
  stop ≤ mark ∧ ['-', '-', '>'] <+: input.drop mark

section Ends

theorem EndsAt.le_length (h : EndsAt input stop mark) : mark + 3 ≤ input.length := by
  have hlength := h.2.length_le
  simp only [List.length_cons, List.length_nil, List.length_drop] at hlength
  omega

theorem EndsAt.exists_append (h : EndsAt input stop mark) :
    ∃ before after, input.drop stop = before ++ (Comment.terminator ++ after) ∧
      stop + before.length ≤ mark := by
  obtain ⟨hle, after, hafter⟩ := h
  obtain ⟨length, rfl⟩ := Nat.exists_eq_add_of_le hle
  refine ⟨(input.drop stop).take length, after, ?_, ?_⟩
  · rw [Comment.terminator, hafter, ← List.drop_drop, List.take_append_drop]
  · rw [List.length_take]
    omega

/-- The scan for the end of a comment finds the first one. -/
theorem isLeast_of_lengthThroughEnd? {length : Nat}
    (h : Comment.lengthThroughEnd? (input.drop stop) = some length) :
    ∃ mark, IsLeast {mark | EndsAt input stop mark} mark ∧ mark + 3 = stop + length := by
  obtain ⟨inside, rest, htext, rfl⟩ := Comment.exists_append_of_lengthThroughEnd? h
  rw [List.append_assoc] at htext
  refine ⟨stop + inside.length, ⟨⟨Nat.le_add_right _ _, ?_⟩, ?_⟩, ?_⟩
  · rw [drop_add_length htext]
    exact List.prefix_append _ _
  · intro other hother
    obtain ⟨before, after, hbefore, hle⟩ := hother.exists_append
    rw [hbefore] at h
    have hlength := Comment.lengthThroughEnd?_le h
    simp only [List.length_append] at hlength
    omega
  · simp [Comment.terminator, Nat.add_assoc]

/-- It finds one wherever it stands. -/
theorem EndsAt.exists_length (h : EndsAt input stop mark) :
    ∃ length, Comment.lengthThroughEnd? (input.drop stop) = some length := by
  obtain ⟨before, after, hbefore, _⟩ := h.exists_append
  obtain ⟨length, hlength, _⟩ := Comment.exists_lengthThroughEnd? before after
  exact ⟨length, by rw [hbefore, hlength]⟩

theorem EndsAt.exists_isLeast (h : EndsAt input stop mark) :
    ∃ first, IsLeast {mark | EndsAt input stop mark} first := by
  obtain ⟨length, hlength⟩ := h.exists_length
  obtain ⟨first, hfirst, _⟩ := isLeast_of_lengthThroughEnd? hlength
  exact ⟨first, hfirst⟩

theorem lengthThroughEnd?_drop_eq_none_iff :
    Comment.lengthThroughEnd? (input.drop stop) = none ↔ ∀ mark, ¬ EndsAt input stop mark := by
  constructor
  · intro hnone mark hmark
    obtain ⟨length, hlength⟩ := hmark.exists_length
    rw [hnone] at hlength
    cases hlength
  · intro hnone
    by_contra hsome
    obtain ⟨length, hlength⟩ := Option.ne_none_iff_exists'.mp hsome
    obtain ⟨mark, hmark, _⟩ := isLeast_of_lengthThroughEnd? hlength
    exact hnone mark hmark.1

/-- Behind the first end of a comment the scan is over. -/
theorem lengthThroughEnd?_of_isLeast (h : IsLeast {mark | EndsAt input stop mark} mark) :
    ∃ length, Comment.lengthThroughEnd? (input.drop stop) = some length ∧
      mark + 3 = stop + length := by
  have hmark : EndsAt input stop mark := h.1
  obtain ⟨length, hlength⟩ := hmark.exists_length
  obtain ⟨first, hfirst, hstop⟩ := isLeast_of_lengthThroughEnd? hlength
  rw [h.unique hfirst]
  exact ⟨length, hlength, hstop⟩

end Ends

section Names

theorem NamedAt.stop_eq (h : NamedAt input start blanks name stop) :
    stop = start + ('<' :: (blanks ++ name)).length := by
  have hlength := congrArg List.length h.text_eq
  have hle := h.stop_le
  simp only [List.length_drop, List.length_cons, List.length_append] at hlength ⊢
  omega

theorem NamedAt.stops_drop (h : NamedAt input start blanks name stop) :
    Stops isNameChar (input.drop stop) := by
  intro c hc
  rw [List.head?_drop] at hc
  exact h.stops c hc

/-- A name is read as that of an opening tag, if it is no comment. -/
theorem NamedAt.openingTag (h : NamedAt input start blanks name stop) (hne : name ≠ [])
    (hcomment : name = ['!', '-', '-'] → ∀ mark, ¬ EndsAt input stop mark) :
    Advance lenient (.content depth) (input.drop start)
      [.tagPunctuation '<', .blanks blanks, .token .tagName name] (.tag depth)
      (input.drop stop) := by
  rw [h.text_eq]
  apply Advance.openingTag h.allBlank h.allName hne h.stops_drop
  unfold Comment.tail?
  split
  next hname => exact lengthThroughEnd?_drop_eq_none_iff.mpr (hcomment hname)
  next => rfl

/-- A comment is read through the first end of one. -/
theorem NamedAt.comment (h : NamedAt input start blanks ['!', '-', '-'] stop)
    (hmark : IsLeast {mark | EndsAt input stop mark} mark) :
    Advance lenient (.content depth) (input.drop start)
      [.token .comment (Span.cut ⟨start, mark + 3⟩ input)] (.content depth)
      (input.drop (mark + 3)) := by
  obtain ⟨length, hlength, hstop⟩ := lengthThroughEnd?_of_isLeast hmark
  obtain ⟨inside, rest, htext, rfl⟩ := Comment.exists_append_of_lengthThroughEnd? hlength
  generalize inside ++ Comment.terminator = body at htext hlength hstop
  have hread : input.drop start = '<' :: (blanks ++ ['!', '-', '-'] ++ body) ++ rest := by
    simp [h.text_eq, htext]
  have hend : mark + 3 = start + ('<' :: (blanks ++ ['!', '-', '-'] ++ body)).length := by
    have := h.stop_eq
    simp only [List.length_cons, List.length_append] at this ⊢
    omega
  rw [hend, Span.cut_of_drop hread, drop_add_length hread, hread]
  have hstops := h.stops_drop
  rw [htext] at hstops hlength
  simpa [Comment.tagName] using Advance.comment h.allBlank hstops hlength

theorem Reaches.comment {before : List Fragment}
    (h : Reaches lenient input before (.content depth) start)
    (hnamed : NamedAt input start blanks ['!', '-', '-'] stop)
    (hmark : IsLeast {mark | EndsAt input stop mark} mark) :
    ⟨.comment, .ofList (Span.cut ⟨start, mark + 3⟩ input), ⟨start, mark + 3⟩⟩ ∈
        (lexMarkup lenient input).tokens ∧
      Reaches lenient input (before ++ [.token .comment (Span.cut ⟨start, mark + 3⟩ input)])
        (.content depth) (mark + 3) := by
  have hread : Advance lenient (.content depth) (input.drop start) _ _ _ := hnamed.comment hmark
  have hnext := h.advance hread (EndsAt.le_length hmark.1)
  refine ⟨h.token_mem hnext ?_, hnext⟩
  simpa [Fragment.sourceOf, Fragment.source] using hread.sourceOf_ne_nil

/-- A comment that was read has its name and an end. -/
theorem exists_namedAt_of_comment {before : List Fragment} {token : Token}
    (h : Reaches lenient input before (.content depth) start)
    (hmem : token ∈ (lexMarkup lenient input).tokens) (hkind : token.kind = .comment)
    (hstart : token.span.start = start) :
    ∃ blanks stop mark, NamedAt input start blanks ['!', '-', '-'] stop ∧
      EndsAt input stop mark := by
  obtain ⟨emitted, ⟨fragment, hfragment, hfound⟩, hread⟩ := h.exists_of_mem hmem hstart
  rw [hkind] at hfound
  generalize htext : input.drop start = text at hread
  rcases hread with ⟨next, rest, hadvance⟩ | ⟨failure, hrefusal⟩
  · obtain ⟨source, rfl⟩ := (hadvance.isMarkup fragment hfragment).eq_token (by decide) hfound
    cases hadvance with
    | @comment depth blanks body rest hblanks hbody hend =>
        have hname : input.drop start = '<' :: (blanks ++ Comment.tagName) ++ (body ++ rest) := by
          simp [htext]
        have hdrop := drop_add_length hname
        rw [← hdrop] at hbody hend
        obtain ⟨mark, hmark, _⟩ := isLeast_of_lengthThroughEnd? hend
        refine ⟨blanks, _, mark, ⟨?_, hblanks, Comment.allName_tagName, ?_, ?_⟩, hmark.1⟩
        · rw [hdrop, htext, Comment.tagName]
        · intro c hc
          rw [← List.head?_drop] at hc
          exact hbody c hc
        · have hlength := congrArg List.length hname
          simp only [List.length_drop, List.length_append, List.length_cons] at hlength ⊢
          omega
    | _ => simp [Fragment.tagPunctuation, Fragment.subtreeBrace] at hfragment
  · cases hrefusal <;> simp at hfragment

end Names

end Markup

open Markup

/-- In content, a comment is read at a position exactly if the name of a comment stands there and an
end of one comes anywhere behind it. It goes through the first such end, and content goes on behind
it. A name with no end behind it is that of an opening tag, the name of a comment like any other. -/
theorem lex_comment (lenient : Bool) (input : String) {before : List Fragment} {depth start : Nat}
    (hreached : Reaches lenient input.toList before (.content depth) start) :
    ((∃ token ∈ (lex { lenient } input).tokens,
        token.kind = .comment ∧ token.span.start = start) ↔
      ∃ blanks stop mark, NamedAt input.toList start blanks ['!', '-', '-'] stop ∧
        EndsAt input.toList stop mark) ∧
    (∀ blanks stop mark, NamedAt input.toList start blanks ['!', '-', '-'] stop →
      IsLeast {mark | EndsAt input.toList stop mark} mark →
      ⟨.comment, .ofList (Span.cut ⟨start, mark + 3⟩ input.toList), ⟨start, mark + 3⟩⟩ ∈
          (lex { lenient } input).tokens ∧
        Reaches lenient input.toList
          (before ++ [.token .comment (Span.cut ⟨start, mark + 3⟩ input.toList)])
          (.content depth) (mark + 3)) ∧
    (∀ blanks name stop, NamedAt input.toList start blanks name stop → name ≠ [] →
      (name = ['!', '-', '-'] → ∀ mark, ¬ EndsAt input.toList stop mark) →
      Reaches lenient input.toList
        (before ++ [.tagPunctuation '<', .blanks blanks, .token .tagName name])
        (.tag depth) stop) := by
  rw [lex_markup]
  refine ⟨⟨?_, ?_⟩, ?_, ?_⟩
  · rintro ⟨token, hmem, hkind, hstart⟩
    exact exists_namedAt_of_comment hreached hmem hkind hstart
  · rintro ⟨blanks, stop, mark, hnamed, hmark⟩
    obtain ⟨first, hfirst⟩ := hmark.exists_isLeast
    exact ⟨_, (hreached.comment hnamed hfirst).1, rfl, rfl⟩
  · intro blanks stop mark hnamed hmark
    exact hreached.comment hnamed hmark
  · intro blanks name stop hnamed hne hnone
    exact hreached.advance (hnamed.openingTag hne hnone) hnamed.stop_le

/-- A comment goes through its first end, and a name without one is that of a tag. -/
theorem lex_comment_ends :
    ⟨.comment, "< !-- -->", ⟨0, 9⟩⟩ ∈ (lex {} "< !-- --> -->").tokens ∧
      Reaches false "<!-- a".toList
        [.tagPunctuation '<', .blanks [], .token .tagName ['!', '-', '-']] (.tag 0) 4 := by
  have hspace : ∀ c ∈ some ' ', isNameChar c = false := by
    rintro c ⟨⟩
    decide
  constructor
  · have hnamed : NamedAt "< !-- --> -->".toList 0 [' '] ['!', '-', '-'] 5 :=
      ⟨rfl, by simp [AllBlank]; decide, Comment.allName_tagName, hspace, by decide⟩
    obtain ⟨mark, hmark, hstop⟩ := @isLeast_of_lengthThroughEnd? "< !-- --> -->".toList 5 4 rfl
    obtain rfl : mark = 6 := by omega
    exact ((lex_comment false "< !-- --> -->" ⟨.refl, Nat.zero_le _⟩).2.1 _ _ _ hnamed hmark).1
  · have hnamed : NamedAt "<!-- a".toList 0 [] ['!', '-', '-'] 4 :=
      ⟨rfl, by simp [AllBlank], Comment.allName_tagName, hspace, by decide⟩
    refine (lex_comment false "<!-- a" ⟨.refl, Nat.zero_le _⟩).2.2 _ _ _ hnamed (by simp) ?_
    exact fun _ => lengthThroughEnd?_drop_eq_none_iff.mp rfl

end TemplateLexer
