import TemplateLexer.Proofs.TemplateText
import TemplateLexer.Proofs.Tiling

/-! # Templates are read as they are meant

Whatever a part of a template is printed as is read as the lexemes of this part,
and the lexer goes on behind it. So a whole template is read without an error.
-/

namespace TemplateLexer.Markup

namespace BareValue

variable {rest : List Char}

theorem ofFirst?_of_isDigit {c : Char} (h : c.isDigit) : ofFirst? c = some .number := by
  have hnot : ∀ d, d.isDigit = false → ¬ (c == d) = true := fun d hd heq => by
    rw [eq_of_beq heq, hd] at h
    cases h
  rw [ofFirst?, toLower_of_isDigit h, if_neg (hnot 't' (by decide)), if_neg (hnot 'f' (by decide)),
    if_pos (by simp [h])]

/-- No name goes on at the boundary of a value. -/
theorem stops_isNameChar_of_atBoundary (h : atBoundary rest) : Stops isNameChar rest := by
  cases rest with
  | nil => exact stops_nil
  | cons c tail =>
      rw [atBoundary, Bool.or_eq_true, beq_iff_eq] at h
      rcases h with hblank | rfl
      · exact stops_cons.mpr (isNameChar_eq_false_of_isBlank hblank)
      · exact stops_cons.mpr (by decide)

/-- So neither does a number. -/
theorem stops_of_atBoundary (h : atBoundary rest) :
    Stops Char.isDigit rest ∧ rest.head? ≠ some '.' := by
  have hstops := stops_isNameChar_of_atBoundary h
  refine ⟨fun c hc => Bool.eq_false_iff.mpr fun hdigit => ?_, fun hhead => ?_⟩
  · have hname := hstops c hc
    rw [isNameChar_of_isDigit hdigit] at hname
    cases hname
  · exact absurd (hstops '.' hhead) (by decide)

theorem spelled_eq {word text : List Char} (h : text.map Char.toLower = word) (rest : List Char) :
    spelled word (text ++ rest) = text.length := by
  induction text generalizing word with
  | nil =>
      obtain rfl := h
      cases rest <;> rfl
  | cons c text ih =>
      obtain rfl := h
      rw [List.map_cons, List.cons_append, spelled, if_pos (beq_self_eq_true _), ih rfl]
      rfl

end BareValue

end TemplateLexer.Markup

namespace TemplateLexer.Template

open Markup

variable {lenient : Bool} {depth : Nat} {rest name : List Char}

namespace Numeral

/-- A number begins with a digit or a point behind its sign. -/
theorem unsigned_eq_cons (numeral : Numeral) :
    ∃ c tail, numeral.unsigned = c :: tail ∧ (c.isDigit ∨ c = '.') := by
  obtain ⟨negative, whole, fraction?, hwhole, hfraction, hsome⟩ := numeral
  cases whole with
  | nil =>
      rcases hsome with hne | ⟨fraction, rfl, _⟩
      · exact absurd rfl hne
      · exact ⟨'.', fraction, rfl, .inr rfl⟩
  | cons c tail =>
      have hc : c.isDigit := hwhole c List.mem_cons_self
      cases fraction? with
      | none => exact ⟨c, tail, rfl, .inl hc⟩
      | some fraction => exact ⟨c, tail ++ '.' :: fraction, rfl, .inl hc⟩

theorem unsignedLength_eq (numeral : Numeral) (hrest : BareValue.atBoundary rest) :
    BareValue.unsignedLength (numeral.unsigned ++ rest) = numeral.unsigned.length := by
  obtain ⟨hdigit, hpoint⟩ := BareValue.stops_of_atBoundary hrest
  unfold unsigned
  cases hfraction : numeral.fraction? with
  | none => exact BareValue.unsignedLength_whole numeral.wholeDigits hdigit hpoint
  | some fraction =>
      have hdigits := numeral.fractionDigits fraction hfraction
      simpa using BareValue.unsignedLength_fraction numeral.wholeDigits hdigits hdigit

theorem any_isDigit_print (numeral : Numeral) : numeral.print.any Char.isDigit := by
  have hunsigned : numeral.unsigned.any Char.isDigit := by
    rw [List.any_eq_true]
    rcases numeral.someDigit with hne | ⟨fraction, hfraction, hne⟩
    · obtain ⟨c, hc⟩ := List.exists_mem_of_ne_nil _ hne
      refine ⟨c, ?_, numeral.wholeDigits c hc⟩
      unfold unsigned
      split
      next => exact hc
      next => exact List.mem_append_left _ hc
    · obtain ⟨c, hc⟩ := List.exists_mem_of_ne_nil _ hne
      refine ⟨c, ?_, numeral.fractionDigits fraction hfraction c hc⟩
      rw [unsigned, Option.mem_def.mp hfraction]
      exact List.mem_append_right _ (List.mem_cons_of_mem _ hc)
  unfold print
  split
  next => exact hunsigned
  next => exact hunsigned

theorem ofFirst?_print (numeral : Numeral) :
    numeral.print.head?.bind BareValue.ofFirst? = some .number := by
  obtain ⟨c, tail, heq, hc⟩ := numeral.unsigned_eq_cons
  unfold print
  split
  next => rfl
  next =>
    rw [heq]
    rcases hc with hdigit | rfl
    · exact BareValue.ofFirst?_of_isDigit hdigit
    · rfl

theorem extent_print (numeral : Numeral) (hrest : BareValue.atBoundary rest) :
    BareValue.extent .number (numeral.print ++ rest) = numeral.print.length := by
  have hlength := numeral.unsignedLength_eq hrest
  unfold print
  split
  next => exact congrArg (· + 1) hlength
  next =>
    obtain ⟨c, tail, heq, hc⟩ := numeral.unsigned_eq_cons
    have hsign : c ≠ '-' := by
      rintro rfl
      exact absurd hc (by decide)
    rw [heq] at hlength ⊢
    exact (BareValue.extent_number_of_head?_ne (by simpa using hsign)).trans hlength

end Numeral

namespace TruthValue

theorem ofFirst?_text (truth : TruthValue) :
    truth.text.head?.bind BareValue.ofFirst? = some (.boolean truth.value) := by
  obtain ⟨value, text, hspelling⟩ := truth
  cases text with
  | nil => cases value <;> cases hspelling
  | cons c tail =>
      cases value with
      | true =>
          have hc : c.toLower = 't' := (List.cons.inj hspelling).1
          simp [BareValue.ofFirst?, hc]
      | false =>
          have hc : c.toLower = 'f' := (List.cons.inj hspelling).1
          simp [BareValue.ofFirst?, hc]

theorem isComplete_text (truth : TruthValue) :
    BareValue.isComplete (.boolean truth.value) truth.text := by
  have hlength := congrArg List.length truth.spelling
  rw [List.length_map] at hlength
  exact beq_iff_eq.mpr hlength

end TruthValue

theorem reads_interpolation (body : ExpressionBody) :
    Reads lenient (.content depth) ('{' :: '{' :: (body.text ++ '}' :: '}' :: rest))
      (Fragment.interpolation body.text).lexemes (.content depth) rest := by
  refine .of_advance_one (.interpolation ?_)
  apply Interpolation.extentFrom_eq_closed (Nat.zero_le _)
  · exact Quote.reduces_nil_iff.mp body.balanced
  · intro before hbefore
    obtain ⟨hreduces, hreduced⟩ : Quote.Reduces (Quote.quotesIn before) _ ∧ Quote.IsReduced _ :=
      Quote.reduces_and_isReduced_iff.mpr rfl
    have hlength := body.bounded before _ hbefore hreduces hreduced
    rwa [List.length_reverse] at hlength
  · intro before after heq hnone
    exact body.first before after heq (Quote.reduces_nil_iff.mpr hnone)

theorem reads_comment (body : CommentBody) :
    Reads lenient (.content depth)
      ('<' :: '!' :: '-' :: '-' :: (body.text ++ '-' :: '-' :: '>' :: rest))
      [{ kind := .comment, source := ['<', '!', '-', '-'] ++ body.text ++ ['-', '-', '>'] }]
      (.content depth) rest := by
  have hend : Comment.lengthThroughEnd? (body.text ++ Comment.terminator ++ rest) =
      some (body.text ++ Comment.terminator).length :=
    Comment.lengthThroughEnd?_eq_iff.mpr body.first
  have hstops : Stops isNameChar (body.text ++ Comment.terminator ++ rest) := by
    obtain ⟨c, hc, hname⟩ := body.begins
    obtain ⟨tail, htail⟩ := List.head?_eq_some_iff.mp hc
    rw [htail]
    exact stops_cons.mpr hname
  have hcomment : Advance lenient (.content depth)
      ('<' :: ([] ++ (Comment.tagName ++ (body.text ++ Comment.terminator ++ rest)))) _ _ _ :=
    .comment nofun hstops hend
  simpa [Comment.tagName, Comment.terminator, Fragment.lexemes] using Reads.of_advance_one hcomment

theorem reads_quoted (quoted : Quoted) :
    Reads lenient (.value name depth) ('"' :: (quoted.contents ++ '"' :: rest))
      (Fragment.quotedValue quoted.contents name).lexemes (.tag depth) rest :=
  .of_advance_one (.quotedValue (QuotedValue.contentsLength?_eq rest quoted.escaped quoted.last))

theorem reads_number (numeral : Numeral) (hrest : BareValue.atBoundary rest) :
    Reads lenient (.value name depth) (numeral.print ++ rest)
      [{ kind := .number, source := numeral.print }] (.tag depth) rest :=
  .of_advance_one (.bareValue numeral.ofFirst?_print (numeral.extent_print hrest)
    numeral.any_isDigit_print hrest)

theorem reads_literal (truth : TruthValue) (hrest : BareValue.atBoundary rest) :
    Reads lenient (.value name depth) (truth.text ++ rest)
      [{ kind := .literal, source := truth.text }] (.tag depth) rest :=
  .of_advance_one (.bareValue truth.ofFirst?_text (BareValue.spelled_eq truth.spelling rest)
    truth.isComplete_text hrest)

theorem Key.head?_any_isDigit (key : Key) : key.name.head?.any Char.isDigit = false := by
  cases hhead : key.name.head? with
  | none => rfl
  | some c => exact key.noDigit c hhead

theorem Key.stops_isBlank (key : Key) (rest : List Char) : Stops isBlank (key.name ++ rest) :=
  key.allName.stops_isBlank key.ne_nil

theorem Key.head?_ne_equals (key : Key) (rest : List Char) :
    (key.name ++ rest).head? ≠ some '=' := by
  obtain ⟨name, hname, hne, _⟩ := key
  cases name with
  | nil => exact absurd rfl hne
  | cons c tail =>
      rintro ⟨⟩
      exact absurd (hname '=' List.mem_cons_self) (by decide)

/-- Behind the name of an attribute that has no value stand the blanks before the next
attribute or before the end of the tag, and no sign. -/
theorem exists_blanks (attributes : Attributes) (isEmpty : Bool) (rest : List Char) :
    ∃ blanks after, attributes.print ++ (printTagEnd isEmpty ++ rest) = blanks ++ after ∧
      AllBlank blanks ∧ Stops isBlank after ∧ after.head? ≠ some '=' := by
  have hspace : AllBlank [' '] := fun c hc => by
    rw [List.mem_singleton.mp hc]
    decide
  cases attributes with
  | nil =>
      cases isEmpty with
      | true => exact ⟨[' '], _, rfl, hspace, stops_cons.mpr (by decide), nofun⟩
      | false => exact ⟨[], _, rfl, nofun, stops_cons.mpr (by decide), nofun⟩
  | flag key tail =>
      refine ⟨[' '], key.name ++ (tail.print ++ (printTagEnd isEmpty ++ rest)), ?_, hspace,
        key.stops_isBlank _, key.head?_ne_equals _⟩
      simp [Attributes.print]
  | valued key value tail =>
      refine ⟨[' '],
        key.name ++ '=' :: (value.print ++ (tail.print ++ (printTagEnd isEmpty ++ rest))),
        ?_, hspace, key.stops_isBlank _, key.head?_ne_equals _⟩
      simp [Attributes.print]

theorem atBoundary_print (attributes : Attributes) (isEmpty : Bool) (rest : List Char) :
    BareValue.atBoundary (attributes.print ++ (printTagEnd isEmpty ++ rest)) := by
  cases attributes with
  | nil => cases isEmpty <;> rfl
  | flag key tail => rfl
  | valued key value tail => rfl

/-- The name of an attribute without a value is read up to the blanks behind it, which
belong to what follows. -/
theorem reads_flag (key : FlagKey) (attributes : Attributes) (isEmpty : Bool) :
    Reads lenient (.tag depth)
      (key.name ++ (attributes.print ++ (printTagEnd isEmpty ++ rest)))
      (AttributeName.lexemes key.name) (.tag depth)
      (attributes.print ++ (printTagEnd isEmpty ++ rest)) := by
  have hstops := BareValue.stops_isNameChar_of_atBoundary (atBoundary_print attributes isEmpty rest)
  obtain ⟨blanks, after, heq, hblanks, hafter, hequals⟩ := exists_blanks attributes isEmpty rest
  rw [heq] at hstops ⊢
  have hreserved : Step.isReserved key.name = false := by
    simp [Step.isReserved, key.notReserved]
  have hflag : Advance lenient (.tag depth) _ _ _ _ :=
    .flag key.allName key.ne_nil key.head?_any_isDigit hblanks hstops hafter hequals hreserved
  -- The lexer reads these blanks with the name, but they are written with what follows it.
  have hall := Reads.of_advance hflag
  simp only [List.flatMap_cons, List.flatMap_nil, List.append_nil] at hall
  exact hall.of_append (Reads.blanks hblanks)

theorem reads_key (key : Key) :
    Reads lenient (.tag depth) (key.name ++ '=' :: rest)
      (AttributeName.lexemes key.name ++ [{ kind := .equals, source := ['='] }])
      (.value key.name depth) rest := by
  have hkey : Advance lenient (.tag depth) (key.name ++ ([] ++ '=' :: rest)) _ _ _ :=
    .key key.allName key.ne_nil key.head?_any_isDigit nofun
  exact Reads.of_advance hkey

theorem reads_space :
    Reads lenient (.tag depth) (' ' :: rest) [.blank ' '] (.tag depth) rest :=
  .of_advance (.blank (by decide))

theorem reads_tagEnd (isEmpty : Bool) :
    Reads lenient (.tag depth) (printTagEnd isEmpty ++ rest) (tagEndLexemes isEmpty)
      (.content depth) rest := by
  cases isEmpty with
  | true =>
      have hend : Reads lenient (.tagEnd depth) ('>' :: rest) [tagMark '>'] (.content depth) rest :=
        .of_advance (.tagEnd (.inr rfl))
      exact reads_space.trans ((Reads.of_advance .slash).trans hend)
  | false => exact .of_advance (.tagEnd (.inl rfl))

/-- No word of text runs into a node that is no text. -/
theorem wordLength_print {closes : Bool} (nodes : Nodes true)
    (hrest : Text.wordLength closes rest = 0) :
    Text.wordLength closes (nodes.print ++ rest) = 0 := by
  cases nodes with
  | nil => exact hrest
  | _ => exact Text.wordLength_eq_zero_iff.mpr (by simp [Text.endsWord])

mutual

/-- Nodes are read from what they are written as, before anything that a word of
text could not run into. -/
theorem reads_nodes {afterText : Bool} (nodes : Nodes afterText) {depth : Nat} {rest : List Char}
    (hrest : Text.wordLength (Step.curlyCloses lenient depth) rest = 0) :
    Reads lenient (.content depth) (nodes.print ++ rest) nodes.lexemes (.content depth) rest := by
  cases nodes with
  | nil => exact .refl
  | text run tail =>
      rw [Nodes.print, Nodes.lexemes, List.append_assoc]
      have hword := wordLength_print tail hrest
      exact (reads_wordsOf run.noOpening run.last hword).trans (reads_nodes tail hrest)
  | interpolation body tail =>
      have hreads := (reads_interpolation body).trans (reads_nodes tail hrest)
      simpa [Nodes.print, Nodes.lexemes, Fragment.lexemes, Fragment.interpolationOpening,
        Fragment.interpolationClosing] using hreads
  | comment body tail =>
      have hreads := (reads_comment body).trans (reads_nodes tail hrest)
      simpa [Nodes.print, Nodes.lexemes] using hreads
  | closingTag name hname tail =>
      have htag : Advance lenient (.content depth)
          ('<' :: ([] ++ '/' :: (name ++ '>' :: (tail.print ++ rest)))) _ _ _ :=
        .closingTag nofun hname
      have hreads := (Reads.of_advance htag).trans (reads_nodes tail hrest)
      simpa [Nodes.print, Nodes.lexemes, Fragment.lexemes, Fragment.tagPunctuation, tagMark]
        using hreads
  | openingTag name attributes isEmpty tail =>
      have hstops := BareValue.stops_isNameChar_of_atBoundary
        (atBoundary_print attributes isEmpty (tail.print ++ rest))
      have htag : Advance lenient (.content depth) ('<' :: ([] ++ (name.name ++ _))) _ _ _ :=
        .openingTag nofun name.allName name.ne_nil hstops (if_neg name.notComment)
      have hreads := ((Reads.of_advance htag).trans (reads_attributes attributes isEmpty)).trans
        ((reads_tagEnd isEmpty).trans (reads_nodes tail hrest))
      simpa [Nodes.print, Nodes.lexemes, Fragment.lexemes, Fragment.tagPunctuation, tagMark]
        using hreads

/-- Attributes are read from what they are written as, before the end of their tag. -/
theorem reads_attributes (attributes : Attributes) (isEmpty : Bool) {depth : Nat}
    {rest : List Char} :
    Reads lenient (.tag depth) (attributes.print ++ (printTagEnd isEmpty ++ rest))
      attributes.lexemes (.tag depth) (printTagEnd isEmpty ++ rest) := by
  cases attributes with
  | nil => exact .refl
  | flag key tail =>
      have hreads : Reads lenient (.tag depth) _ _ (.tag depth) (printTagEnd isEmpty ++ rest) :=
        reads_space.trans ((reads_flag key tail isEmpty).trans (reads_attributes tail isEmpty))
      simpa [Attributes.print, Attributes.lexemes] using hreads
  | valued key value tail =>
      have hboundary := atBoundary_print tail isEmpty rest
      have hreads : Reads lenient (.tag depth) _ _ (.tag depth) (printTagEnd isEmpty ++ rest) :=
        (reads_space.trans (reads_key key)).trans ((reads_value key.name value hboundary).trans
          (reads_attributes tail isEmpty))
      simpa [Attributes.print, Attributes.lexemes] using hreads

/-- A value is read from what it is written as, before the end of it. -/
theorem reads_value (name : List Char) (value : Value) {depth : Nat} {rest : List Char}
    (hrest : BareValue.atBoundary rest) :
    Reads lenient (.value name depth) (value.print ++ rest) (value.lexemes name) (.tag depth)
      rest := by
  cases value with
  | quoted quoted =>
      have hreads : Reads lenient (.value name depth) _ _ (.tag depth) rest := reads_quoted quoted
      simpa [Value.print, Value.lexemes, Fragment.lexemes, Fragment.contentsLexemes] using hreads
  | number numeral => exact reads_number numeral hrest
  | literal truth => exact reads_literal truth hrest
  | subtree nodes =>
      have hword : Text.wordLength (Step.curlyCloses lenient (depth + 1)) ('}' :: rest) = 0 :=
        Text.wordLength_eq_zero_iff.mpr (by simp [Text.endsWord, Step.curlyCloses])
      have hreads : Reads lenient (.value name depth) _ _ (.tag depth) rest :=
        (Reads.of_advance .subtree).trans
          ((reads_nodes nodes hword).trans (Reads.of_advance .subtreeEnd))
      simpa [Value.print, Value.lexemes, Fragment.lexemes, Fragment.subtreeBrace] using hreads

end

end TemplateLexer.Template

namespace TemplateLexer

/-- A template is read without an error from what it is written as, and its tokens are
those that it consists of. -/
theorem lex_print (lenient : Bool) (template : Template) :
    lex { lenient } (String.ofList template.print) =
      { tokens := Lexeme.placeAll 0 template.lexemes, error := none } := by
  have hreads : Markup.Reads lenient (.content 0) (template.print ++ []) template.lexemes
      (.content 0) [] := Template.reads_nodes template rfl
  rw [Markup.Reads, Markup.runLexemes_finished, List.append_nil, List.append_nil] at hreads
  have hlexemes : markupLexemes lenient template.print = template.lexemes :=
    congrArg Prod.fst hreads
  have hfailure : (Markup.run lenient (.content 0) template.print).2 = none :=
    congrArg Prod.snd hreads
  have hlex : lex { lenient } (String.ofList template.print) =
      lexMarkup lenient template.print := by
    rw [lex, String.toList_ofList]
  have htokens : (lexMarkup lenient template.print).tokens =
      Lexeme.placeAll 0 template.lexemes := by
    rw [lexMarkup_tokens, hlexemes]
  have herror : (lexMarkup lenient template.print).error = none :=
    Option.map_eq_none_iff.mpr hfailure
  rw [hlex, ← htokens, ← herror]

end TemplateLexer
