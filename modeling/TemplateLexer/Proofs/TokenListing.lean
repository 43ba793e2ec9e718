import TemplateLexer.Proofs.FileIndependence
import TemplateLexer.Proofs.QuotedReading

/-! # Listings of tokens can be read back

The tokens of a file are listed a line each, in fields. Whatever is in their texts, a line ends
where its token ends and a field where its part of the token ends, so that the tokens can be told
from what is printed. The text of a token is quoted, and the listing is looked at for any choice of
the characters that the quotes hide.
-/

namespace TemplateLexer.CommandLine

open Invocation Report.Quoted

namespace Listing

/-- The ends of a span, with two points between them. -/
def place (span : Span) : List Char :=
  ['.'].intercalate [Nat.toDigits 10 span.start, [], Nat.toDigits 10 span.stop]

/-- The fields of a token, where the given characters are hidden in its text. -/
def fields (hidden : Char → Bool) (token : Token) : List (List Char) :=
  [place token.span, token.kind.name.toList, (encodeUnder hidden token.text).toList]

/-- The line of a token, without its end. -/
def line (hidden : Char → Bool) (token : Token) : List Char :=
  ['\t'].intercalate (fields hidden token)

/-- What is printed of tokens. -/
def print (hidden : Char → Bool) (tokens : List Token) : String :=
  String.ofList (tokens.flatMap fun token => line hidden token ++ ['\n'])

/-- Reads the ends of a span. -/
def readSpan? (text : List Char) : Option Span :=
  match text.splitOn '.' with
  | [start, [], stop] => some ⟨Nat.ofDigitChars 10 start 0, Nat.ofDigitChars 10 stop 0⟩
  | _ => none

/-- Reads the line of a token. -/
def readLine? (text : List Char) : Option Token :=
  match text.splitOn '\t' with
  | [place, kind, quoted] => do
    let span ← readSpan? place
    let kind ← Token.Kind.ofName? (String.ofList kind)
    let text ← decode? quoted
    some { kind, text, span }
  | _ => none

/-- Reads what is printed of tokens. What stands behind the last line is not looked at. -/
def read? (text : String) : Option (List Token) :=
  (text.toList.splitOn '\n').dropLast.mapM readLine?

end Listing

/-- A text has one line for each token and nothing else, and the tokens can be read from it. -/
structure IsListing (text : String) (tokens : List Token) : Prop where
  lines : ∃ lines : List (List Char),
    text.toList = lines.flatMap (· ++ ['\n']) ∧ (∀ line ∈ lines, '\n' ∉ line) ∧
      lines.length = tokens.length
  read : Listing.read? text = some tokens

namespace Listing

theorem notMem_toDigits {value : Nat} {c : Char} (hc : c.isDigit = false) :
    c ∉ Nat.toDigits 10 value := by
  intro hmem
  rw [Nat.isDigit_of_mem_toDigits (by decide) (by decide) hmem] at hc
  cases hc

theorem readSpan?_place (span : Span) : readSpan? (place span) = some span := by
  have hpoint : ∀ part ∈ [Nat.toDigits 10 span.start, [], Nat.toDigits 10 span.stop],
      '.' ∉ part := by
    simp [notMem_toDigits]
  rw [readSpan?, place, List.splitOn_intercalate '.' hpoint (List.cons_ne_nil _ _)]
  dsimp only
  rw [Nat.ofDigitChars_ten_toDigits, Nat.ofDigitChars_ten_toDigits]

section Fields

variable {separator : Char}

theorem notMem_place (h : separator ∈ separators) (span : Span) :
    separator ∉ place span := by
  have hall : separators.all fun separator => !separator.isDigit && separator != '.' := by decide
  have hseparator := List.all_eq_true.mp hall separator h
  simp only [Bool.and_eq_true, Bool.not_eq_true', bne_iff_ne, ne_eq] at hseparator
  obtain ⟨hdigit, hpoint⟩ := hseparator
  simp [place, List.intercalate, notMem_toDigits hdigit, hpoint]

theorem notMem_name (h : separator ∈ separators) (kind : Token.Kind) :
    separator ∉ kind.name.toList := by
  have hall : Token.Kind.all.all fun kind =>
      separators.all fun separator => !kind.name.toList.contains separator := by
    decide
  have hkind := List.all_eq_true.mp hall kind kind.mem_all
  simpa using List.all_eq_true.mp hkind separator h

end Fields

section Line

variable (hidden : Char → Bool) (token : Token)

theorem notMem_fields {separator : Char} (h : separator ∈ separators) :
    ∀ field ∈ fields hidden token, separator ∉ field := by
  intro field hfield
  simp only [fields, List.mem_cons, List.not_mem_nil, or_false] at hfield
  rcases hfield with rfl | rfl | rfl
  · exact notMem_place h token.span
  · exact notMem_name h token.kind
  · exact notMem_encodeUnder h token.text

theorem readLine?_line : readLine? (line hidden token) = some token := by
  rw [readLine?, line, List.splitOn_intercalate '\t' (notMem_fields hidden token (by decide))
    (List.cons_ne_nil _ _), fields]
  dsimp only
  rw [readSpan?_place, String.ofList_toList, Token.Kind.ofName?_name, decode?_encodeUnder]
  rfl

theorem newline_notMem_line : '\n' ∉ line hidden token := by
  have hfields : ∀ field ∈ fields hidden token, '\n' ∉ field :=
    notMem_fields hidden token (by decide)
  simp only [fields, List.forall_mem_cons] at hfields
  obtain ⟨hplace, hname, htext, _⟩ := hfields
  simp [line, fields, List.intercalate, hplace, hname, htext]

end Line

section Lines

variable (hidden : Char → Bool)

/-- The lines are found again. -/
theorem splitOn_print (tokens : List Token) :
    (print hidden tokens).toList.splitOn '\n' = tokens.map (line hidden) ++ [[]] := by
  rw [print, String.toList_ofList]
  induction tokens with
  | nil => rw [List.flatMap_nil, List.splitOn_nil, List.map_nil, List.nil_append]
  | cons token tokens ih =>
      rw [List.flatMap_cons, List.append_assoc, List.singleton_append,
        List.splitOn_append_cons_self_of_not_mem (newline_notMem_line hidden token), ih]
      rfl

theorem mapM_readLine? (tokens : List Token) :
    (tokens.map (line hidden)).mapM readLine? = some tokens := by
  induction tokens with
  | nil => rfl
  | cons token tokens ih =>
      rw [List.map_cons, List.mapM_cons, readLine?_line, ih]
      rfl

theorem read?_print (tokens : List Token) : read? (print hidden tokens) = some tokens := by
  rw [read?, splitOn_print, List.dropLast_concat, mapM_readLine?]

theorem isListing_print (tokens : List Token) : IsListing (print hidden tokens) tokens := by
  refine ⟨⟨tokens.map (line hidden), ?_, ?_, List.length_map _⟩, read?_print hidden tokens⟩
  · rw [print, String.toList_ofList, List.flatMap_map]
  · intro text hmem
    obtain ⟨token, _, rfl⟩ := List.mem_map.mp hmem
    exact newline_notMem_line hidden token

/-- Listings that are printed one after the other make one listing. -/
theorem join_map_print {α : Type} (tokensOf : α → List Token) (parts : List α) :
    String.join (parts.map fun part => print hidden (tokensOf part)) =
      print hidden (parts.flatMap tokensOf) := by
  apply String.toList_injective
  simp only [print, String.toList_join, String.toList_ofList, List.flatMap_map, List.flatMap_assoc]

theorem print_injective : Function.Injective (print hidden) := by
  intro first second hprint
  have hread := read?_print hidden first
  rw [hprint, read?_print hidden second] at hread
  exact (Option.some.inj hread).symm

end Lines

end Listing

section Files

/-- The tokens of a file, if it can be read. -/
def tokensOf (files : Files) (options : Options) (path : String) : List Token :=
  match files path with
  | .error _ => []
  | .ok text => (lex options text).tokens

/-- The tokens of all files that the arguments name, one file after the other. -/
def tokensRead (files : Files) (arguments : List String) : List Token :=
  (pathsIn arguments).flatMap (tokensOf files (requested arguments))

theorem toList_tokenLine (token : Token) :
    (FileReport.tokenLine token).toList = Listing.line isInvisible token ++ ['\n'] := by
  simp [FileReport.tokenLine, Listing.line, Listing.fields, Listing.place, List.intercalate,
    encodeUnder_isInvisible, toString]

/-- What is printed of a file is the listing of its tokens. -/
theorem stdout_report_tokens (files : Files) (options : Options) (path : String) :
    (report files .tokens options path).stdout =
      Listing.print isInvisible (tokensOf files options path) := by
  rw [report, tokensOf]
  cases files path with
  | error error => rfl
  | ok text =>
      apply String.toList_injective
      simp only [FileReport.ofText, FileReport.tokens, Listing.print, String.toList_join,
        String.toList_ofList, List.flatMap_map, toList_tokenLine]

theorem stdout_run_tokens (files : Files) {arguments : List String} (h : Admissible arguments) :
    (run files ("tokens" :: arguments)).stdout =
      Listing.print isInvisible (tokensRead files arguments) := by
  have hrun := h.run_eq files .tokens
  rw [Command.name] at hrun
  rw [hrun, tokensRead, ← Listing.join_map_print]
  simp only [Output.ofReports, List.map_map, Function.comp_def, stdout_report_tokens]

end Files

/-- The tokens of files that are reported on have a line each and can be told from what is printed
of them, be it of all files or of one, and no two lists of tokens are printed alike. This rests on
what is escaped in any quoted text and not on which characters are hidden besides. -/
theorem run_tokens_isListing (files : Files) {arguments : List String} (h : Admissible arguments) :
    IsListing (run files ("tokens" :: arguments)).stdout (tokensRead files arguments) ∧
    (∀ path text, files path = .ok text →
      IsListing (report files .tokens (requested arguments) path).stdout
        (lex (requested arguments) text).tokens) ∧
    (run files ("tokens" :: arguments)).stdout =
      Listing.print isInvisible (tokensRead files arguments) ∧
    ∀ hidden, (∀ tokens, IsListing (Listing.print hidden tokens) tokens) ∧
      Function.Injective (Listing.print hidden) := by
  have hrun := stdout_run_tokens files h
  refine ⟨?_, ?_, hrun, fun hidden =>
    ⟨Listing.isListing_print hidden, Listing.print_injective hidden⟩⟩
  · rw [hrun]
    exact Listing.isListing_print isInvisible _
  · intro path text hread
    have htokens : (lex (requested arguments) text).tokens =
        tokensOf files (requested arguments) path := by
      rw [tokensOf, hread]
    rw [stdout_report_tokens, htokens]
    exact Listing.isListing_print isInvisible _

/-- A file with a string whose contents look like an end of it, an escape and another line. -/
def disguised : Files := fun path =>
  if path = "page" then .ok "'\"\n0..1\tTab\t\\t\u001b'" else .error .notText

/-- The string has one line, and is read from it with all its characters. -/
theorem run_tokens_isListing_disguised :
    Admissible ["none", "page", "--expression"] ∧
      (run disguised ["tokens", "none", "page", "--expression"]).stdout =
        "0..16\tString\t\"'\\\"\\n0..1\\tTab\\t\\\\t\\u\x7b1b\x7d'\"\n" ∧
      IsListing (run disguised ["tokens", "none", "page", "--expression"]).stdout
        [{ kind := .string, text := "'\"\n0..1\tTab\t\\t\u001b'", span := ⟨0, 16⟩ }] := by
  have hadmissible : Admissible ["none", "page", "--expression"] := ⟨by decide, by decide⟩
  have htokens : tokensRead disguised ["none", "page", "--expression"] =
      [{ kind := .string, text := "'\"\n0..1\tTab\t\\t\u001b'", span := ⟨0, 16⟩ }] := by
    decide +kernel
  have hlisting := (run_tokens_isListing disguised hadmissible).1
  rw [htokens] at hlisting
  exact ⟨hadmissible, by decide +kernel, hlisting⟩

end TemplateLexer.CommandLine
