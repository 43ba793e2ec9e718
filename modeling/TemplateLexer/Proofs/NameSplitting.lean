import TemplateLexer.Proofs.Embedding
import TemplateLexer.Proofs.StreamGrowth

/-! # Splitting names of attributes

The markers of a name are found while it is split, and whether there are any is asked once more
where its value is read. The two agree on all names. What a name is split into is told by rules that
do not look at how it is done. A program that counts bytes and not characters comes to the same, for
the brackets of a binding are one byte each and what stands between them begins and ends with whole
characters.
-/

namespace TemplateLexer.Markup.AttributeName

open Sentence

section Rules

/-- The token of a kind for some characters, if there are any. -/
def optionalPiece (kind : Token.Kind) (source : List Char) : List Piece :=
  if source = [] then [] else [(kind, source)]

/-- A keyword and the hyphen behind it are split off if a name begins with them. -/
inductive SplitsOff (keyword : List Char) (Rest : List Char → List Piece → Prop) :
    List Char → List Piece → Prop where
  | marked {name : List Char} {pieces : List Piece} (hrest : Rest name pieces) :
      SplitsOff keyword Rest (keyword ++ '-' :: name)
        (directiveWord keyword :: directiveMark '-' :: pieces)
  | unmarked {name : List Char} {pieces : List Piece} (hnot : ¬ keyword ++ ['-'] <+: name)
      (hrest : Rest name pieces) : SplitsOff keyword Rest name pieces

/-- What no marker is left in is one token. -/
def IsPlain (name : List Char) (pieces : List Piece) : Prop :=
  pieces = optionalPiece .attributeName name

/-- The marker of a variable may come in front of what is plain. -/
def IsDeclared : List Char → List Piece → Prop := SplitsOff ['l', 'e', 't'] IsPlain

/-- The marker of a repetition may come in front of that of a variable. -/
def IsRepeated : List Char → List Piece → Prop := SplitsOff ['f', 'o', 'r'] IsDeclared

/-- What a name is split into. Brackets count if they enclose the whole name, and a repetition is
marked only behind an asterisk. -/
inductive IsSplitInto : List Char → List Piece → Prop where
  | binding (inner : List Char) :
      IsSplitInto ('[' :: (inner ++ [']']))
        (directiveMark '[' :: (optionalPiece .bindingName inner ++ [directiveMark ']']))
  | structural {name : List Char} {pieces : List Piece} (hrest : IsRepeated name pieces) :
      IsSplitInto ('*' :: name) (directiveMark '*' :: pieces)
  | other {name : List Char} {pieces : List Piece}
      (hbinding : ∀ inner, name ≠ '[' :: (inner ++ [']'])) (hasterisk : ∀ rest, name ≠ '*' :: rest)
      (hrest : IsDeclared name pieces) : IsSplitInto name pieces

variable {keyword name : List Char} {Rest : List Char → List Piece → Prop} {pieces other : List Piece}

theorem piecesOf_singleton (kind : Token.Kind) (source : List Char) :
    Lexeme.piecesOf [{ kind, source }] = optionalPiece kind source := by
  cases source with
  | nil => rfl
  | cons c rest => rfl

theorem splitsOff_splitMarker (hne : keyword ≠ [])
    (hrest : Rest (splitMarker (keyword ++ ['-']) name).2 pieces) :
    SplitsOff keyword Rest name
      (Lexeme.piecesOf (splitMarker (keyword ++ ['-']) name).1 ++ pieces) := by
  cases hbegins : (keyword ++ ['-']).isPrefixOf name with
  | false =>
      rw [splitMarker_of_not hbegins] at hrest ⊢
      refine .unmarked (fun hprefix => ?_) hrest
      rw [List.isPrefixOf_iff_prefix.mpr hprefix] at hbegins
      cases hbegins
  | true =>
      rw [splitMarker_of hbegins] at hrest ⊢
      obtain ⟨rest, rfl⟩ := List.isPrefixOf_iff_prefix.mp hbegins
      rw [List.drop_left] at hrest
      rw [List.dropLast_concat, Lexeme.piecesOf_cons hne, List.append_assoc]
      exact .marked hrest

theorem isDeclared_splitMarker (name : List Char) :
    IsDeclared name (Lexeme.piecesOf (splitMarker letMarker name).1 ++
      Lexeme.piecesOf [{ kind := .attributeName, source := (splitMarker letMarker name).2 }]) := by
  rw [piecesOf_singleton]
  exact splitsOff_splitMarker (List.cons_ne_nil _ _) rfl

/-- The brackets of a binding and the name between them. -/
def bindingLexemes (inner : List Char) : List Lexeme :=
  [punctuation '[', { kind := .bindingName, source := inner }, punctuation ']']

/-- The markers of a name that is no binding, and what they leave of it. -/
def markedLexemes (name : List Char) : List Lexeme :=
  (splitStructural name).1 ++ (splitMarker letMarker (splitStructural name).2).1 ++
    [{ kind := .attributeName, source := (splitMarker letMarker (splitStructural name).2).2 }]

theorem lexemes_of_isBinding (h : isBinding name) :
    lexemes name = bindingLexemes (name.drop 1).dropLast := by
  rw [lexemes, if_pos h]
  rfl

theorem lexemes_of_not_isBinding (h : isBinding name = false) :
    lexemes name = markedLexemes name := by
  rw [lexemes, h]
  rfl

theorem isBinding_enclosed (inner : List Char) : isBinding ('[' :: (inner ++ [']'])) := by
  rw [isBinding, ← List.cons_append, List.getLast?_concat]
  rfl

theorem piecesOf_bindingLexemes (inner : List Char) :
    Lexeme.piecesOf (bindingLexemes inner) =
      directiveMark '[' :: (optionalPiece .bindingName inner ++ [directiveMark ']']) := by
  rw [← piecesOf_singleton]
  exact Lexeme.piecesOf_append ([punctuation '['] ++ [{ kind := .bindingName, source := inner }])
    [punctuation ']']

/-- Names are split by the rules. -/
theorem isSplitInto_lexemes (name : List Char) :
    IsSplitInto name (Lexeme.piecesOf (lexemes name)) := by
  cases hbinding : isBinding name with
  | true =>
      rw [lexemes_of_isBinding hbinding, piecesOf_bindingLexemes]
      have henclosed := IsSplitInto.binding (name.drop 1).dropLast
      rwa [← eq_of_isBinding hbinding] at henclosed
  | false =>
      rw [lexemes_of_not_isBinding hbinding, markedLexemes, List.append_assoc,
        Lexeme.piecesOf_append, Lexeme.piecesOf_append]
      by_cases hasterisk : name.head? = some '*'
      · obtain ⟨rest, rfl⟩ := List.head?_eq_some_iff.mp hasterisk
        rw [splitStructural, Lexeme.piecesOf_cons (List.cons_ne_nil _ _)]
        exact .structural (splitsOff_splitMarker (List.cons_ne_nil _ _) (isDeclared_splitMarker _))
      · rw [splitStructural_of_not hasterisk]
        refine .other ?_ ?_ (isDeclared_splitMarker name)
        · rintro inner rfl
          rw [isBinding_enclosed] at hbinding
          cases hbinding
        · rintro rest rfl
          exact hasterisk rfl

theorem isPrefix_marked (keyword rest : List Char) :
    keyword ++ ['-'] <+: keyword ++ '-' :: rest :=
  ⟨rest, by rw [List.append_assoc, List.singleton_append]⟩

theorem SplitsOff.unique
    (hunique : ∀ name first second, Rest name first → Rest name second → first = second)
    (hfirst : SplitsOff keyword Rest name pieces) (hsecond : SplitsOff keyword Rest name other) :
    pieces = other := by
  cases hfirst with
  | @marked rest left hleft =>
      generalize hname : keyword ++ '-' :: rest = name at hsecond
      cases hsecond with
      | @marked rest' right hright =>
          obtain rfl : rest = rest' := List.tail_eq_of_cons_eq (List.append_cancel_left hname)
          rw [hunique rest left right hleft hright]
      | unmarked hnot _ =>
          rw [← hname] at hnot
          exact absurd (isPrefix_marked keyword rest) hnot
  | unmarked hnot hleft =>
      cases hsecond with
      | marked _ => exact absurd (isPrefix_marked keyword _) hnot
      | unmarked _ hright => exact hunique _ _ _ hleft hright

theorem IsDeclared.unique (hfirst : IsDeclared name pieces) (hsecond : IsDeclared name other) :
    pieces = other := by
  apply SplitsOff.unique _ hfirst hsecond
  intro rest left right hleft hright
  exact hleft.trans hright.symm

theorem IsRepeated.unique (hfirst : IsRepeated name pieces) (hsecond : IsRepeated name other) :
    pieces = other := by
  apply SplitsOff.unique _ hfirst hsecond
  intro rest left right hleft hright
  exact hleft.unique hright

/-- The rules leave no choice. -/
theorem IsSplitInto.unique (hfirst : IsSplitInto name pieces) (hsecond : IsSplitInto name other) :
    pieces = other := by
  cases hfirst with
  | binding inner =>
      generalize hname : '[' :: (inner ++ [']']) = name at hsecond
      cases hsecond with
      | binding inner' =>
          obtain rfl : inner = inner' :=
            List.append_cancel_right (List.tail_eq_of_cons_eq hname)
          rfl
      | structural _ => cases hname
      | other hbinding _ _ => exact absurd hname.symm (hbinding inner)
  | @structural rest left hleft =>
      generalize hname : '*' :: rest = name at hsecond
      cases hsecond with
      | binding inner => cases hname
      | structural hright =>
          obtain rfl := List.tail_eq_of_cons_eq hname
          rw [hleft.unique hright]
      | other _ hasterisk _ => exact absurd hname.symm (hasterisk rest)
  | other hbinding hasterisk hleft =>
      cases hsecond with
      | binding inner => exact absurd rfl (hbinding inner)
      | structural _ => exact absurd rfl (hasterisk _)
      | other _ _ hright => exact hleft.unique hright

theorem isSplitInto_iff (name : List Char) (pieces : List Piece) :
    IsSplitInto name pieces ↔ Lexeme.piecesOf (lexemes name) = pieces := by
  constructor
  · exact (isSplitInto_lexemes name).unique
  · rintro rfl
    exact isSplitInto_lexemes name

end Rules

section Bytes

/-- The text from one byte of a text up to another. There is none unless characters begin, or the
text ends, at both bytes, and these are in order. -/
def sliceBytes? (text : String) (start stop : Nat) : Option String :=
  if h : String.Pos.Raw.IsValid text ⟨start⟩ ∧ String.Pos.Raw.IsValid text ⟨stop⟩ ∧
      start ≤ stop then
    some (text.slice (text.pos ⟨start⟩ h.1) (text.pos ⟨stop⟩ h.2.1) h.2.2).copy
  else none

/-- Whether a name is a binding, told by its length in bytes. -/
def isBindingInBytes (name : String) : Bool :=
  2 ≤ name.utf8ByteSize && name.toList.head? == some '[' && name.toList.getLast? == some ']'

/-- Whether a name is that of a directive, told by its length in bytes. -/
def isDirectiveInBytes (name : String) : Bool :=
  name.toList.head? == some '*' || isBindingInBytes name || letMarker.isPrefixOf name.toList

/-- Reads a name, and takes of a binding all bytes but the first and the last one. -/
def lexemesInBytes? (name : String) : Option (List Lexeme) :=
  if isBindingInBytes name then
    (sliceBytes? name 1 (name.utf8ByteSize - 1)).map fun inner => bindingLexemes inner.toList
  else some (markedLexemes name.toList)

theorem sliceBytes?_append (before piece rest : String) :
    sliceBytes? (before ++ (piece ++ rest)) before.utf8ByteSize (before ++ piece).utf8ByteSize =
      some piece := by
  have hstart : String.Pos.Raw.IsValid (before ++ (piece ++ rest)) before.rawEndPos :=
    String.Pos.Raw.isValid_iff_exists_append.mpr ⟨before, piece ++ rest, rfl, rfl⟩
  have hstop : String.Pos.Raw.IsValid (before ++ (piece ++ rest)) (before ++ piece).rawEndPos :=
    String.Pos.Raw.isValid_iff_exists_append.mpr
      ⟨before ++ piece, rest, String.append_assoc.symm, rfl⟩
  have hle : before.utf8ByteSize ≤ (before ++ piece).utf8ByteSize := by
    rw [String.utf8ByteSize_append]
    exact Nat.le_add_right _ _
  have hsplitsStart : (String.pos _ before.rawEndPos hstart).Splits before (piece ++ rest) :=
    ⟨rfl, rfl⟩
  have hsplitsStop : (String.pos _ (before ++ piece).rawEndPos hstop).Splits (before ++ piece) rest :=
    ⟨String.append_assoc.symm, rfl⟩
  obtain ⟨_, hcopy⟩ := String.copy_slice_eq_iff_splits.mpr
    ⟨before, rest, hsplitsStart, hsplitsStop⟩
  rw [sliceBytes?, dif_pos ⟨hstart, hstop, hle⟩]
  exact congrArg some hcopy

/-- No text begins or ends within a character. -/
example : sliceBytes? "[é]" 1 2 = none := by decide +kernel

theorem exists_enclosed_of_isBinding {name : String} (h : isBinding name.toList) :
    ∃ inner : String, name = "[" ++ (inner ++ "]") := by
  refine ⟨.ofList (name.toList.drop 1).dropLast, String.toList_inj.mp ?_⟩
  simp only [String.toList_append, String.toList_ofList]
  exact eq_of_isBinding h

theorem inner_enclosed (inner : String) :
    (("[" ++ (inner ++ "]")).toList.drop 1).dropLast = inner.toList := by
  rw [String.toList_append, String.toList_append]
  exact List.dropLast_concat

/-- The brackets of a binding are a byte each. -/
theorem utf8ByteSize_enclosed (inner : String) :
    ("[" ++ (inner ++ "]")).utf8ByteSize = ("[" ++ inner).utf8ByteSize + 1 := by
  rw [← String.append_assoc, String.utf8ByteSize_append]
  rfl

theorem isBindingInBytes_eq (name : String) : isBindingInBytes name = isBinding name.toList := by
  rw [isBindingInBytes, Bool.and_assoc]
  change (decide _ && isBinding name.toList) = _
  cases hbinding : isBinding name.toList with
  | false => rw [Bool.and_false]
  | true =>
      obtain ⟨inner, rfl⟩ := exists_enclosed_of_isBinding hbinding
      rw [Bool.and_true, decide_eq_true_iff, utf8ByteSize_enclosed, String.utf8ByteSize_append]
      exact Nat.succ_le_succ (Nat.le_add_right 1 _)

/-- The bytes of a name can always be cut, and the result is what is read by characters. -/
theorem lexemesInBytes?_eq (name : String) :
    lexemesInBytes? name = some (lexemes name.toList) := by
  rw [lexemesInBytes?, isBindingInBytes_eq]
  cases hbinding : isBinding name.toList with
  | false =>
      rw [lexemes_of_not_isBinding hbinding]
      rfl
  | true =>
      rw [lexemes_of_isBinding hbinding]
      obtain ⟨inner, rfl⟩ := exists_enclosed_of_isBinding hbinding
      have hslice : sliceBytes? ("[" ++ (inner ++ "]")) 1 ("[" ++ inner).utf8ByteSize = some inner :=
        sliceBytes?_append "[" inner "]"
      rw [utf8ByteSize_enclosed, Nat.add_sub_cancel, hslice, inner_enclosed]
      rfl

end Bytes

end TemplateLexer.Markup.AttributeName

namespace TemplateLexer.TokenStream

open Markup AttributeName

/-- The tokens of a name say the name, whatever it is, and none of them is empty. Bytes can be
counted instead of characters. There is punctuation among them if and only if the name is that of a
directive; any other name is its own token. The rules tell which tokens they are. -/
theorem emit_attributeName (stream : TokenStream) (name : String) :
    ∃ added : List Token,
      (stream.emit (.attributeName name.toList)).tokens = stream.tokens ++ added ∧
      String.join (added.map (·.text)) = name ∧
      (∀ token ∈ added, token.text ≠ "") ∧
      lexemesInBytes? name = some (lexemes name.toList) ∧
      isDirectiveInBytes name = isDirective name.toList ∧
      ((∃ token ∈ added, token.kind = .directivePunctuation) ↔ isDirective name.toList) ∧
      (isDirective name.toList = false →
        added.map Token.piece = optionalPiece .attributeName name.toList) ∧
      ∀ pieces, IsSplitInto name.toList pieces ↔ added.map Token.piece = pieces := by
  refine ⟨Lexeme.placeAll stream.offset (lexemes name.toList), rfl, ?_, ?_,
    lexemesInBytes?_eq name, ?_, (isDirective_iff name.toList stream.offset).symm, ?_, ?_⟩
  · apply String.toList_inj.mp
    rw [String.toList_join, List.flatMap_map]
    exact flatMap_text_name name.toList stream.offset
  · intro token
    exact (Fragment.attributeName name.toList).text_ne_of_mem_placeAll
  · rw [isDirectiveInBytes, isBindingInBytes_eq]
    rfl
  · intro hplain
    rw [Lexeme.map_piece_placeAll, lexemes_of_not_isDirective hplain, piecesOf_singleton]
  · intro pieces
    rw [Lexeme.map_piece_placeAll]
    exact isSplitInto_iff name.toList pieces

end TemplateLexer.TokenStream
