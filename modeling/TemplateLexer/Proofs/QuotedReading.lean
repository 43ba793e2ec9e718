import TemplateLexer.Report.Quoted

/-! # Reading quoted text

What is written between quotes can be read back, and for that it does not matter which characters
count as invisible: an escape says by itself what it stands for. The reader goes through the
characters once, knows where it stands, and takes nothing behind the closing quote.
-/

namespace TemplateLexer.Report.Quoted

/-- A character as it is written where the given characters are hidden. -/
def escapeUnder (hidden : Char → Bool) (c : Char) : List Char :=
  match shortEscape? c with
  | some letter => ['\\', letter]
  | none => if hidden c then codePointEscape c else [c]

/-- A text between quotes, where the given characters are hidden. -/
def encodeUnder (hidden : Char → Bool) (text : String) : String :=
  String.ofList ('"' :: text.toList.flatMap (escapeUnder hidden) ++ ['"'])

theorem encodeUnder_isInvisible : encodeUnder isInvisible = encode := rfl

/-- The characters that a letter stands for, each with its letter. -/
def shortEscapes : List (Char × Char) :=
  [('"', '"'), ('\\', '\\'), ('\t', 't'), ('\r', 'r'), ('\n', 'n'), ('\x00', '0')]

/-- The character that a letter behind a backslash stands for. -/
def ofLetter? (letter : Char) : Option Char :=
  (shortEscapes.find? (·.2 == letter)).map (·.1)

/-- What stands between the fields and behind the lines of a report. -/
def separators : List Char := ['\t', '\n']

/-- The value of a hexadecimal digit. -/
def hexValue? (digit : Char) : Option Nat :=
  "0123456789abcdef".toList.idxOf? digit

/-- Where a reader stands in a quoted text. -/
inductive Place where
  | inside
  | behindBackslash
  | behindLetter
  /-- Between the brackets of a code point, of which the digits so far have a value. -/
  | inCodePoint (value : Nat)
  | closed

/-- Reads what is left of a quoted text. -/
def readFrom? : Place → List Char → Option (List Char)
  | .inside, '"' :: rest => readFrom? .closed rest
  | .inside, '\\' :: rest => readFrom? .behindBackslash rest
  | .inside, c :: rest => (readFrom? .inside rest).map (c :: ·)
  | .behindBackslash, 'u' :: rest => readFrom? .behindLetter rest
  | .behindBackslash, letter :: rest =>
    (ofLetter? letter).bind fun c => (readFrom? .inside rest).map (c :: ·)
  | .behindLetter, '{' :: rest => readFrom? (.inCodePoint 0) rest
  | .inCodePoint value, '}' :: rest =>
    (readFrom? .inside rest).map (Char.ofNat value :: ·)
  | .inCodePoint value, digit :: rest =>
    (hexValue? digit).bind fun last => readFrom? (.inCodePoint (16 * value + last)) rest
  | .closed, [] => some []
  | _, _ => none

/-- Reads a quoted text. -/
def decode? : List Char → Option String
  | '"' :: rest => (readFrom? .inside rest).map String.ofList
  | _ => none

section Digits

variable {value : Nat} {digit : Char}

theorem hexValue?_digitChar (h : value < 16) : hexValue? value.digitChar = some value := by
  have hall : ∀ value : Fin 16, hexValue? value.val.digitChar = some value.val := by decide
  exact hall ⟨value, h⟩

theorem digitChar_notMem (h : value < 16) : value.digitChar ∉ '}' :: separators := by
  have hall : ∀ value : Fin 16, value.val.digitChar ∉ '}' :: separators := by decide
  exact hall ⟨value, h⟩

theorem exists_digitChar_of_mem_toDigits (h : digit ∈ Nat.toDigits 16 value) :
    ∃ last < 16, digit = last.digitChar := by
  induction value using Nat.strongRecOn with
  | ind value ih =>
      rw [Nat.toDigits_eq_if (by decide)] at h
      split at h
      next hlt => exact ⟨value, hlt, List.mem_singleton.mp h⟩
      next hle =>
        rcases List.mem_append.mp h with hfirst | hlast
        · exact ih _ (by omega) hfirst
        · exact ⟨value % 16, Nat.mod_lt _ (by decide), List.mem_singleton.mp hlast⟩

end Digits

section Letters

variable {c letter : Char}

theorem mem_shortEscapes (h : shortEscape? c = some letter) : (c, letter) ∈ shortEscapes := by
  rw [shortEscape?] at h
  repeat' split at h
  all_goals cases h
  all_goals simp_all [shortEscapes]

/-- The letters are told apart, and from the one that announces a code point. -/
theorem ofLetter?_of_shortEscape? (h : shortEscape? c = some letter) :
    ofLetter? letter = some c ∧ letter ∉ 'u' :: separators := by
  have hall : shortEscapes.all fun escape =>
      ofLetter? escape.2 == some escape.1 && !('u' :: separators).contains escape.2 := by
    decide
  have hescape := List.all_eq_true.mp hall _ (mem_shortEscapes h)
  simpa using hescape

theorem notMem_of_shortEscape?_eq_none (h : shortEscape? c = none) :
    c ∉ '"' :: '\\' :: separators := by
  intro hmem
  simp only [separators, List.mem_cons, List.not_mem_nil, or_false] at hmem
  rcases hmem with rfl | rfl | rfl | rfl <;> exact absurd h (by decide)

end Letters

section Reading

variable (rest : List Char)

theorem readFrom?_letter {c letter : Char} (h : shortEscape? c = some letter) :
    readFrom? .inside (['\\', letter] ++ rest) = (readFrom? .inside rest).map (c :: ·) := by
  obtain ⟨hletter, hnot⟩ := ofLetter?_of_shortEscape? h
  rw [List.cons_append, List.singleton_append, readFrom?, readFrom?, hletter, Option.bind_some]
  exact List.ne_of_not_mem_cons hnot

theorem readFrom?_plain {c : Char} (h : shortEscape? c = none) :
    readFrom? .inside ([c] ++ rest) = (readFrom? .inside rest).map (c :: ·) := by
  have hnot := notMem_of_shortEscape?_eq_none h
  simp only [List.mem_cons, not_or] at hnot
  obtain ⟨hquote, hbackslash, _⟩ := hnot
  rw [List.singleton_append, readFrom?]
  · exact hquote
  · exact hbackslash

theorem readFrom?_digit (value : Nat) {last : Nat} (h : last < 16) :
    readFrom? (.inCodePoint value) ([last.digitChar] ++ rest) =
      readFrom? (.inCodePoint (16 * value + last)) rest := by
  rw [List.singleton_append, readFrom?, hexValue?_digitChar h, Option.bind_some]
  exact List.ne_of_not_mem_cons (digitChar_notMem h)

/-- Hexadecimal digits are read as the number that they denote. -/
theorem readFrom?_toDigits (value : Nat) :
    readFrom? (.inCodePoint 0) (Nat.toDigits 16 value ++ rest) =
      readFrom? (.inCodePoint value) rest := by
  induction value using Nat.strongRecOn generalizing rest with
  | ind value ih =>
      rw [Nat.toDigits_eq_if (by decide)]
      split
      next hlt => rw [readFrom?_digit rest 0 hlt, Nat.mul_zero, Nat.zero_add]
      next hle =>
        have hlast : value % 16 < 16 := Nat.mod_lt value (by decide)
        rw [List.append_assoc, ih _ (by omega), readFrom?_digit rest _ hlast, Nat.div_add_mod]

theorem readFrom?_codePoint (c : Char) :
    readFrom? .inside (codePointEscape c ++ rest) = (readFrom? .inside rest).map (c :: ·) := by
  rw [codePointEscape]
  simp only [List.cons_append, List.nil_append, List.append_assoc, readFrom?,
    readFrom?_toDigits, Char.ofNat_toNat]

variable (hidden : Char → Bool)

theorem readFrom?_escapeUnder (c : Char) :
    readFrom? .inside (escapeUnder hidden c ++ rest) = (readFrom? .inside rest).map (c :: ·) := by
  rw [escapeUnder]
  split
  next letter h => exact readFrom?_letter rest h
  next h =>
    split
    next => exact readFrom?_codePoint rest c
    next => exact readFrom?_plain rest h

theorem readFrom?_flatMap_escapeUnder (text : List Char) :
    readFrom? .inside (text.flatMap (escapeUnder hidden) ++ rest) =
      (readFrom? .inside rest).map (text ++ ·) := by
  induction text with
  | nil => simp
  | cons c text ih =>
      rw [List.flatMap_cons, List.append_assoc, readFrom?_escapeUnder, ih, Option.map_map]
      rfl

/-- A quoted text is read as the text, whatever is hidden in it. -/
theorem decode?_encodeUnder (text : String) :
    decode? (encodeUnder hidden text).toList = some text := by
  rw [encodeUnder, String.toList_ofList, List.cons_append, decode?,
    readFrom?_flatMap_escapeUnder]
  simp [readFrom?]

end Reading

section Separators

variable {hidden : Char → Bool} {c d : Char}

theorem notMem_separators_of_codePointEscape (h : d ∈ codePointEscape c) : d ∉ separators := by
  rw [codePointEscape] at h
  rcases List.mem_append.mp h with hfront | hclosing
  · rcases List.mem_append.mp hfront with hopening | hdigit
    · have hall : ['\\', 'u', '{'].all fun d => !separators.contains d := by decide
      simpa using List.all_eq_true.mp hall d hopening
    · obtain ⟨last, hlast, rfl⟩ := exists_digitChar_of_mem_toDigits hdigit
      exact List.not_mem_of_not_mem_cons (digitChar_notMem hlast)
  · rw [List.mem_singleton.mp hclosing]
    decide

theorem notMem_separators_of_escapeUnder (h : d ∈ escapeUnder hidden c) : d ∉ separators := by
  rw [escapeUnder] at h
  split at h
  next letter hletter =>
    obtain ⟨_, hnot⟩ := ofLetter?_of_shortEscape? hletter
    rcases List.mem_cons.mp h with rfl | hlast
    · decide
    · rw [List.mem_singleton.mp hlast]
      exact List.not_mem_of_not_mem_cons hnot
  next hplain =>
    split at h
    next => exact notMem_separators_of_codePointEscape h
    next =>
      rw [List.mem_singleton.mp h]
      have hnot := notMem_of_shortEscape?_eq_none hplain
      exact List.not_mem_of_not_mem_cons (List.not_mem_of_not_mem_cons hnot)

/-- Tabs and line ends are never written as they are. -/
theorem notMem_encodeUnder {separator : Char} (h : separator ∈ separators) (text : String) :
    separator ∉ (encodeUnder hidden text).toList := by
  intro hmem
  rw [encodeUnder, String.toList_ofList] at hmem
  rcases List.mem_append.mp hmem with hfront | hclosing
  · rcases List.mem_cons.mp hfront with rfl | hinside
    · exact absurd h (by decide)
    · obtain ⟨c, _, hescape⟩ := List.mem_flatMap.mp hinside
      exact notMem_separators_of_escapeUnder hescape h
  · rw [List.mem_singleton.mp hclosing] at h
    exact absurd h (by decide)

end Separators

end TemplateLexer.Report.Quoted
