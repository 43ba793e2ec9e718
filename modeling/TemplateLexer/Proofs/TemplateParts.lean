import TemplateLexer.Proofs.Template

/-! # Parts of templates in what is read

What the lexer reads as a comment, as the contents of a quoted value or as a bare value is
a part that templates are made of: it meets the conditions under which such a part can be
printed.
-/

namespace TemplateLexer.Markup

variable {source rest : List Char}

namespace Comment

/-- What is read behind the name of a comment is a body and its end. -/
theorem exists_body {body : List Char} (hbody : Stops isNameChar (body ++ rest))
    (hend : lengthThroughEnd? (body ++ rest) = some body.length) :
    ∃ comment : Template.CommentBody, body = comment.text ++ terminator := by
  obtain ⟨inside, after, htext, hlength⟩ := exists_append_of_lengthThroughEnd? hend
  obtain ⟨rfl, rfl⟩ := List.append_inj htext hlength.symm
  have hbegins : ∃ c ∈ inside.head?, isNameChar c = false := by
    cases inside with
    | nil => exact absurd (stops_cons.mp hbody) (by decide)
    | cons c tail => exact ⟨c, rfl, stops_cons.mp hbody⟩
  exact ⟨⟨inside, hbegins, lengthThroughEnd?_eq_iff.mp hend⟩, rfl⟩

end Comment

namespace QuotedValue

/-- Contents that end meet the conditions on quoted values. -/
theorem exists_quoted {contents : List Char}
    (h : contentsLength? (contents ++ '"' :: rest) = some contents.length) :
    ∃ quoted : Template.Quoted, quoted.contents = contents := by
  obtain ⟨hescaped, hlast⟩ := escaped_of_contentsLength? h
  exact ⟨⟨contents, hescaped, hlast⟩, rfl⟩

end QuotedValue

namespace BareValue

/-- Digits with at most one point among them are a number if there is a digit. -/
theorem exists_unsigned (h : unsignedLength (source ++ rest) = source.length)
    (hdigit : source.any Char.isDigit) (negative : Bool) :
    ∃ numeral : Template.Numeral, numeral.negative = negative ∧ numeral.unsigned = source := by
  rcases unsigned_cases h with ⟨hwhole, _⟩ | ⟨whole, fraction, rfl, hwhole, hfraction, _⟩
  · have hne : source ≠ [] := by
      rintro rfl
      cases hdigit
    exact ⟨⟨negative, source, none, hwhole, by simp, .inl hne⟩, rfl, rfl⟩
  · have hne : whole ≠ [] ∨ ∃ digits ∈ some fraction, digits ≠ [] := by
      simp only [Option.mem_some_iff, exists_eq_left']
      by_contra! hnone
      obtain ⟨rfl, rfl⟩ := hnone
      exact absurd hdigit (by decide)
    exact ⟨⟨negative, whole, some fraction, hwhole, by simpa using hfraction, hne⟩, rfl, rfl⟩

/-- A bare number is written as a number is. -/
theorem exists_numeral (h : extent .number (source ++ rest) = source.length)
    (hcomplete : isComplete .number source) :
    ∃ numeral : Template.Numeral, numeral.print = source := by
  rcases extent_number_cases h with ⟨_, hlength⟩ | ⟨unsigned, rfl, hlength⟩
  · obtain ⟨numeral, hnegative, rfl⟩ := exists_unsigned hlength hcomplete false
    exact ⟨numeral, if_neg (by simp [hnegative])⟩
  · obtain ⟨numeral, hnegative, rfl⟩ := exists_unsigned hlength hcomplete true
    exact ⟨numeral, if_pos hnegative⟩

theorem map_toLower_of_spelled {word : List Char}
    (h : spelled word (source ++ rest) = source.length) (hlength : source.length = word.length) :
    source.map Char.toLower = word :=
  (map_toLower_isPrefix_of_spelled h).eq_of_length (by rwa [List.length_map])

/-- A bare truth value is spelled to its end, in any letter case. -/
theorem exists_truthValue {truth : Bool}
    (h : extent (.boolean truth) (source ++ rest) = source.length)
    (hcomplete : isComplete (.boolean truth) source) :
    ∃ value : Template.TruthValue, value.text = source :=
  ⟨⟨truth, source, map_toLower_of_spelled h (eq_of_beq hcomplete)⟩, rfl⟩

end BareValue

end TemplateLexer.Markup
