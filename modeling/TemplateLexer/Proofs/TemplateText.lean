import TemplateLexer.Proofs.Source
import TemplateLexer.Proofs.Template
import TemplateLexer.Proofs.Trace

/-! # The text of templates

Text is written with a backslash before each character that would end it, and is
read as the words and blanks that were written.
-/

namespace TemplateLexer.Markup

namespace Text

variable {closes : Bool} {c : Char} {rest : List Char}

theorem escape_cons (c : Char) (text : List Char) :
    escape (c :: text) = (if isEscapable c then ['\\', c] else [c]) ++ escape text := rfl

theorem escape_append (first second : List Char) :
    escape (first ++ second) = escape first ++ escape second := List.flatMap_append

/-- What is escaped begins with no character that a backslash could escape. -/
theorem isEscapable_of_mem_head?_escape (c : Char) (text rest : List Char) :
    ∀ d ∈ (escape (c :: text) ++ rest).head?, isEscapable d = false := by
  rw [escape_cons]
  split
  next =>
    rintro d ⟨⟩
    decide
  next hc =>
    rintro d ⟨⟩
    simpa using hc

theorem eq_of_head?_escape {text : List Char} (h : (escape (c :: text) ++ rest).head? = some '{') :
    c = '{' := by
  rw [escape_cons] at h
  split at h
  next => cases h
  next => exact Option.some.inj h

/-- A word is read from end to end, whatever is read after it. -/
theorem wordLength_escape {word : List Char} (hblank : ∀ c ∈ word, isBlank c = false)
    (hopening : ¬ ['{', '{'] <:+: word)
    (hcurly : word.getLast? = some '{' → rest.head? ≠ some '{')
    (hbackslash : word.getLast? = some '\\' → ∀ c ∈ rest.head?, isEscapable c = false) :
    wordLength closes (escape word ++ rest) = (escape word).length + wordLength closes rest := by
  induction word with
  | nil => simp [escape]
  | cons c word ih =>
      have hlast : ∀ d, word.getLast? = some d → (c :: word).getLast? = some d := fun d hd => by
        rw [List.getLast?_cons, hd]
        rfl
      have hword := ih (fun d hd => hblank d (List.mem_cons_of_mem _ hd))
        (fun hpair => hopening (hpair.trans (List.suffix_cons c word).isInfix))
        (fun hd => hcurly (hlast _ hd)) (fun hd => hbackslash (hlast _ hd))
      by_cases hescapable : isEscapable c
      · rw [escape_cons, if_pos hescapable]
        change wordLength closes ('\\' :: c :: (escape word ++ rest)) = _
        rw [wordLength_escaped hescapable, hword]
        simp only [List.length_append, List.length_cons, List.length_nil]
        omega
      · rw [escape_cons, if_neg hescapable]
        change wordLength closes (c :: (escape word ++ rest)) = _
        by_cases hc : c = '\\'
        · subst hc
          rw [wordLength_backslash, hword]
          · simp only [List.length_append, List.length_cons, List.length_nil]
            omega
          · cases word with
            | nil => exact hbackslash rfl
            | cons d tail => exact isEscapable_of_mem_head?_escape d tail rest
        · have hends : endsWord closes c (escape word ++ rest) = false := by
            -- Brackets are not escaped, so a pair of them would be one of the word or its end.
            have hpair : c = '{' → (escape word ++ rest).head? ≠ some '{' := by
              rintro rfl hhead
              cases word with
              | nil => exact hcurly rfl hhead
              | cons d tail =>
                  obtain rfl := eq_of_head?_escape hhead
                  exact hopening ⟨[], tail, rfl⟩
            have hblank : isBlank c = false := hblank c List.mem_cons_self
            simp only [isEscapable, Bool.or_eq_true, beq_iff_eq, not_or] at hescapable
            simpa [endsWord, hblank, hescapable] using hpair
          rw [wordLength_plain hc hends, hword]
          simp only [List.length_append, List.length_cons, List.length_nil]
          omega

end Text

end TemplateLexer.Markup

namespace TemplateLexer.Template

open Markup

variable {lenient : Bool} {depth : Nat} {rest : List Char}

/-- A word is read from what it is written as, unless what follows would change it. -/
theorem reads_word {word : List Char} (hne : word ≠ [])
    (hblank : ∀ c ∈ word, isBlank c = false) (hopening : ¬ ['{', '{'] <:+: word)
    (hcurly : word.getLast? = some '{' → rest.head? ≠ some '{')
    (hbackslash : word.getLast? = some '\\' → ∀ c ∈ rest.head?, Text.isEscapable c = false)
    (hrest : Text.wordLength (Step.curlyCloses lenient depth) rest = 0) :
    Reads lenient (.content depth) (Text.escape word ++ rest)
      [{ kind := .text, source := Text.escape word, text := word }] (.content depth) rest := by
  have hlength : Text.wordLength (Step.curlyCloses lenient depth) (Text.escape word ++ rest) =
      (Text.escape word).length := by
    rw [Text.wordLength_escape hblank hopening hcurly hbackslash, hrest, Nat.add_zero]
  have hescape : Text.escape word ≠ [] := fun hnil => by
    have hword := Text.unescape_escape word
    rw [hnil] at hword
    exact hne hword.symm
  have hreads := Reads.of_advance_one (.word hescape hlength)
  rw [Fragment.lexemes,
    Text.lexemes_of_word hescape (Text.isBlank_of_mem_word hlength), Text.wordLexeme,
    Text.unescape_escape] at hreads
  exact hreads

theorem mem_getLast?_append (first : List Char) {second : List Char} {c : Char}
    (h : c ∈ second.getLast?) : c ∈ (first ++ second).getLast? := by
  rw [List.getLast?_append, Option.mem_def.mp h]
  rfl

theorem isEscapable_of_isBlank {c : Char} (h : isBlank c) : Text.isEscapable c = false := by
  apply Bool.eq_false_iff.mpr
  intro hescapable
  simp only [Text.isEscapable, Bool.or_eq_true, beq_iff_eq] at hescapable
  rcases hescapable with rfl | rfl <;> exact absurd h (by decide)

theorem escape_cons_of_isBlank {c : Char} (h : isBlank c) (text : List Char) :
    Text.escape (c :: text) = c :: Text.escape text := by
  rw [Text.escape_cons, isEscapable_of_isBlank h]
  rfl

/-- Words and the blanks around them are read from what they are written as. -/
theorem reads_wordsOf {text : List Char} (hopening : ¬ ['{', '{'] <:+: text)
    (hlast : ∀ c ∈ text.getLast?, c ≠ '{' ∧ c ≠ '\\')
    (hrest : Text.wordLength (Step.curlyCloses lenient depth) rest = 0) :
    Reads lenient (.content depth) (Text.escape text ++ rest) (wordsOf text) (.content depth)
      rest := by
  fun_induction wordsOf text with
  | case1 => exact .refl
  | case2 c tail hc ih =>
      have hblank : Reads lenient (.content depth) (c :: (Text.escape tail ++ rest))
        [.blank c] (.content depth) (Text.escape tail ++ rest) := .of_advance (.blank hc)
      rw [escape_cons_of_isBlank hc]
      refine hblank.trans (ih ?_ ?_)
      · exact fun hpair => hopening (hpair.trans (List.suffix_cons c tail).isInfix)
      · exact fun d hd => hlast d (mem_getLast?_append [c] hd)
  | case3 c tail hc ih =>
      have hsplit : c :: tail =
          (c :: tail.takeWhile (!isBlank ·)) ++ tail.dropWhile (!isBlank ·) := by
        rw [List.cons_append, List.takeWhile_append_dropWhile]
      have hblank : ∀ d ∈ c :: tail.takeWhile (!isBlank ·), isBlank d = false := by
        intro d hd
        rcases List.mem_cons.mp hd with rfl | htail
        · simpa using hc
        · simpa using List.mem_takeWhile_imp htail
      have hstops := stops_dropWhile (!isBlank ·) tail
      rw [hsplit] at hopening hlast ⊢
      rw [Text.escape_append, List.append_assoc]
      have hne : c :: tail.takeWhile (!isBlank ·) ≠ [] := List.cons_ne_nil _ _
      generalize tail.dropWhile (!isBlank ·) = after at *
      generalize c :: tail.takeWhile (!isBlank ·) = word at *
      have hword : ¬ ['{', '{'] <:+: word := fun hpair =>
        hopening (hpair.trans ⟨[], after, rfl⟩)
      have hafter := ih (fun hpair => hopening (hpair.trans ⟨word, [], by simp⟩))
        fun d hd => hlast d (mem_getLast?_append word hd)
      rw [← List.singleton_append]
      refine Reads.trans ?_ hafter
      -- A blank or the end of the text follows, and the conditions on the end are met.
      cases after with
      | nil =>
          have hend : ∀ d, word.getLast? = some d → d ≠ '{' ∧ d ≠ '\\' := fun d hd =>
            hlast d (by rwa [List.append_nil])
          exact reads_word hne hblank hword (fun h => absurd rfl (hend _ h).1)
            (fun h => absurd rfl (hend _ h).2) hrest
      | cons d more =>
          have hd : isBlank d := by simpa using hstops
          rw [escape_cons_of_isBlank hd]
          refine reads_word hne hblank hword (fun _ => ?_) (fun _ => ?_) ?_
          · rintro ⟨⟩
            exact absurd hd (by decide)
          · rintro _ ⟨⟩
            exact isEscapable_of_isBlank hd
          · exact Text.wordLength_eq_zero_iff.mpr (by simp [Text.endsWord, hd])

end TemplateLexer.Template
