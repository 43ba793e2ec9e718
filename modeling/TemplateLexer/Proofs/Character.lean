import TemplateLexer.Markup.AttributeValue

/-! # Relations between character classes

Letters, digits and the other characters that begin a bare value are all name
characters, and no blank is one. The blanks are a list of single characters.
-/

namespace TemplateLexer

/-- The characters with the Unicode property White_Space, one by one. -/
def whiteSpace : List Char :=
  ['\t', '\n', '\u000b', '\u000c', '\r', ' ', '\u0085', '\u00a0', '\u1680', '\u2000', '\u2001',
    '\u2002', '\u2003', '\u2004', '\u2005', '\u2006', '\u2007', '\u2008', '\u2009', '\u200a',
    '\u2028', '\u2029', '\u202f', '\u205f', '\u3000']

theorem mem_whiteSpace_iff {c : Char} : c ∈ whiteSpace ↔ isBlank c := by
  constructor
  · intro hmem
    have hall : whiteSpace.all isBlank := by decide
    exact List.all_eq_true.mp hall c hmem
  · intro hblank
    -- The ranges are compared as code points, of which there are finitely many.
    have hcodes : whiteSpace.map Char.toNat =
        [9, 10, 11, 12, 13, 32, 133, 160, 5760, 8192, 8193, 8194, 8195, 8196, 8197, 8198, 8199,
          8200, 8201, 8202, 8232, 8233, 8239, 8287, 12288] := rfl
    have hcode : c.toNat ∈ whiteSpace.map Char.toNat := by
      simp only [isBlank, blankRanges, List.any_cons, List.any_nil, Bool.or_false, Bool.or_eq_true,
        Bool.and_eq_true, decide_eq_true_eq] at hblank
      simp only [hcodes, List.mem_cons, List.not_mem_nil, or_false]
      omega
    obtain ⟨d, hmem, hsame⟩ := List.mem_map.mp hcode
    rwa [← Char.toNat_inj.mp hsame]

theorem isBlank_eq_false_of_isNameChar {c : Char} (h : isNameChar c) : isBlank c = false := by
  cases hblank : isBlank c with
  | false => rfl
  | true =>
      rw [isNameChar_eq_false_of_isBlank hblank] at h
      cases h

/-- Name characters are told by their code points. -/
theorem isNameChar_of_toNat {c : Char} (hfirst : 33 ≤ c.toNat) (hlast : c.toNat ≤ 126)
    (hdelimiter : c.toNat ∉ [60, 62, 123, 125, 92, 47, 39, 34, 61]) : isNameChar c := by
  have hnot : c ∉ tagDelimiters := fun hmem => hdelimiter (List.mem_map_of_mem hmem)
  simp only [isNameChar, Char.le_def, UInt32.le_iff_toNat_le, List.contains_eq_mem, hnot,
    decide_false, Bool.not_false, Bool.and_true, Bool.and_eq_true, decide_eq_true_eq]
  exact ⟨hfirst, hlast⟩

theorem toNat_of_isDigit {c : Char} (h : c.isDigit) : 48 ≤ c.toNat ∧ c.toNat ≤ 57 := by
  simp only [Char.isDigit, Bool.and_eq_true, decide_eq_true_eq, ge_iff_le,
    UInt32.le_iff_toNat_le] at h
  exact h

theorem isNameChar_of_isDigit {c : Char} (h : c.isDigit) : isNameChar c := by
  obtain ⟨hfirst, hlast⟩ := toNat_of_isDigit h
  apply isNameChar_of_toNat (by omega) (by omega)
  simp only [List.mem_cons, List.not_mem_nil, or_false]
  omega

theorem toNat_of_isAlpha {c : Char} (h : c.isAlpha) :
    65 ≤ c.toNat ∧ c.toNat ≤ 90 ∨ 97 ≤ c.toNat ∧ c.toNat ≤ 122 := by
  have hcase : c.isUpper || c.isLower := h
  rcases (Bool.or_eq_true _ _).mp hcase with hupper | hlower
  · have hrange : 'A'.val ≤ c.val ∧ c.val ≤ 'Z'.val := of_decide_eq_true hupper
    exact .inl ⟨UInt32.le_iff_toNat_le.mp hrange.1, UInt32.le_iff_toNat_le.mp hrange.2⟩
  · have hrange : (decide ('a'.val ≤ c.val) && decide (c.val ≤ 'z'.val)) = true := hlower
    rw [Bool.and_eq_true, decide_eq_true_eq, decide_eq_true_eq] at hrange
    exact .inr ⟨UInt32.le_iff_toNat_le.mp hrange.1, UInt32.le_iff_toNat_le.mp hrange.2⟩

theorem isNameChar_of_isAlpha {c : Char} (h : c.isAlpha) : isNameChar c := by
  have hrange := toNat_of_isAlpha h
  apply isNameChar_of_toNat (by omega) (by omega)
  simp only [List.mem_cons, List.not_mem_nil, or_false]
  omega

theorem isAlpha_eq_false_of_isDigit {c : Char} (h : c.isDigit) : c.isAlpha = false := by
  rw [Bool.eq_false_iff]
  intro halpha
  have hdigit := toNat_of_isDigit h
  have hletter := toNat_of_isAlpha halpha
  omega

/-- No quote is a name character. -/
theorem ofChar?_isSome_eq_false_of_isNameChar {c : Char} (h : isNameChar c) :
    (Quote.ofChar? c).isSome = false := by
  have hsingle : c ≠ '\'' := by
    rintro rfl
    exact absurd h (by decide)
  have hdouble : c ≠ '"' := by
    rintro rfl
    exact absurd h (by decide)
  simp [Quote.ofChar?, hsingle, hdouble]

/-- Digits have no letter case. -/
theorem toLower_of_isDigit {c : Char} (h : c.isDigit) : c.toLower = c := by
  apply dif_neg
  rintro ⟨hupper, _⟩
  have hfirst : 65 ≤ c.toNat := UInt32.le_iff_toNat_le.mp hupper
  have hlast := (toNat_of_isDigit h).2
  omega

/-- Lowering the case of a character makes no name character of another one. -/
theorem isNameChar_of_isNameChar_toLower {c : Char} (h : isNameChar c.toLower) :
    isNameChar c := by
  by_cases hupper : c.val ≥ 'A'.val ∧ c.val ≤ 'Z'.val
  · have hfirst : 65 ≤ c.toNat := UInt32.le_iff_toNat_le.mp hupper.1
    have hlast : c.toNat ≤ 90 := UInt32.le_iff_toNat_le.mp hupper.2
    apply isNameChar_of_toNat (by omega) (by omega)
    simp only [List.mem_cons, List.not_mem_nil, or_false]
    omega
  · have hlower : c.toLower = c := dif_neg hupper
    rwa [hlower] at h

namespace Markup

theorem BareValue.isNameChar_of_ofFirst? {c : Char} {value : BareValue}
    (h : ofFirst? c = some value) : isNameChar c := by
  unfold ofFirst? at h
  split at h
  next hc => exact isNameChar_of_isNameChar_toLower (by rw [eq_of_beq hc]; decide)
  next =>
    split at h
    next hc => exact isNameChar_of_isNameChar_toLower (by rw [eq_of_beq hc]; decide)
    next =>
      split at h
      next hc =>
        simp only [Bool.or_eq_true, beq_iff_eq] at hc
        rcases hc with (hdigit | rfl) | rfl
        · exact isNameChar_of_isDigit hdigit
        · decide
        · decide
      next => cases h

end Markup

end TemplateLexer
