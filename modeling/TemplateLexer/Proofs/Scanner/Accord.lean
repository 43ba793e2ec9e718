import TemplateLexer.Proofs.Scanner.Logic
import TemplateLexer.Proofs.Tiling

/-! # Scanners and runs

A scanner and the run of its input come to the same points. At such a point the
scanner has written what the run has read, and a scanner that refuses the input
does so with what the run ends with.
-/

namespace TemplateLexer

namespace Scanner

open TemplateLexer.Markup

variable {lenient : Bool} {input unread rest : List Char} {state next : State}
  {stream : TokenStream} {emitted : List Fragment} {failure : Failure}

/-- The run of an input comes to this point, and the stream holds what it has read. -/
def Reached (lenient : Bool) (input : List Char) (state : State) (unread : List Char)
    (stream : TokenStream) : Prop :=
  unread <:+ input ∧ ∃ lexemes, Reads lenient (.content 0) input lexemes state unread ∧
    stream = ({} : TokenStream).append lexemes

/-- The run of an input ends with this error, and the stream holds what it has read. -/
def Refused (lenient : Bool) (input : List Char) (error : LexError) (stream : TokenStream) : Prop :=
  ∃ lexemes failure, runLexemes lenient (.content 0) input = (lexemes, some failure) ∧
    stream = ({} : TokenStream).append lexemes ∧ error = failure.toLexError input

namespace Reached

theorem start (lenient : Bool) (input : List Char) : Reached lenient input (.content 0) input {} :=
  ⟨List.suffix_rfl, [], .refl, (TokenStream.append_nil {}).symm⟩

/-- What is read between two points is written between them. -/
theorem reads (h : Reached lenient input state unread stream) {lexemes : List Lexeme}
    (hreads : Reads lenient state unread lexemes next rest) (hrest : rest <:+ unread) :
    Reached lenient input next rest (stream.append lexemes) := by
  obtain ⟨hsuffix, before, hbefore, rfl⟩ := h
  exact ⟨hrest.trans hsuffix, before ++ lexemes, hbefore.trans hreads,
    (TokenStream.append_append _ _ _).symm⟩

theorem advance (h : Reached lenient input state unread stream)
    (hadvance : Advance lenient state unread emitted next rest) :
    Reached lenient input next rest (emitted.foldl TokenStream.emit stream) := by
  rw [TokenStream.foldl_emit]
  apply h.reads (.of_advance hadvance)
  rw [hadvance.text_eq]
  exact List.suffix_append _ _

theorem blanks {run : List Char} (h : Reached lenient input state (run ++ rest) stream)
    (hrun : AllBlank run) : Reached lenient input state rest (stream.emit (.blanks run)) :=
  h.reads (.blanks hrun) (List.suffix_append _ _)

theorem refuse (h : Reached lenient input state unread stream)
    (hrefusal : Refusal lenient state unread emitted failure) :
    Refused lenient input (failure.toLexError input) (emitted.foldl TokenStream.emit stream) := by
  obtain ⟨_, before, hbefore, rfl⟩ := h
  refine ⟨before ++ emitted.flatMap Fragment.lexemes, failure, ?_, ?_, rfl⟩
  · rw [hbefore, runLexemes, run_of_refusal hrefusal]
  · rw [TokenStream.foldl_emit, TokenStream.append_append]

end Reached

/-- A scanner stands at a point of the run, before characters that satisfy a condition,
and no span is pending. -/
def Stands (lenient : Bool) (input : List Char) (state : State) (condition : List Char → Prop)
    (scanner : Scanner) : Prop :=
  ∃ unread nesting stream, scanner = facing input unread {} nesting stream ∧
    Reached lenient input state unread stream ∧ condition unread

/-- A program ends with a result and a scanner as they should be, or it refuses the
input when the run does. -/
def Accords (lenient : Bool) (input : List Char) {α : Type} (program : Scan α) (first : Scanner)
    (post : α → Scanner → Prop) : Prop :=
  (∃ a last, Runs program first (.ok a) last ∧ post a last) ∨
    ∃ error last, Runs program first (.error (.refused error)) last ∧
      Refused lenient input error last.stream

namespace Accords

variable {α β : Type} {first middle last : Scanner} {program : Scan α} {next : α → Scan β}
  {post : β → Scanner → Prop}

theorem of_runs {a : α} {post : α → Scanner → Prop} (h : Runs program first (.ok a) last)
    (hpost : post a last) : Accords lenient input program first post :=
  .inl ⟨a, last, h, hpost⟩

theorem pure {a : α} {post : α → Scanner → Prop} (hpost : post a first) :
    Accords lenient input (Pure.pure a) first post :=
  of_runs (.pure a) hpost

theorem bind {between : α → Scanner → Prop} (h : Accords lenient input program first between)
    (hnext : ∀ a scanner, between a scanner → Accords lenient input (next a) scanner post) :
    Accords lenient input (program >>= next) first post := by
  rcases h with ⟨a, middle, hruns, hmiddle⟩ | ⟨error, last, hruns, hrefused⟩
  · rcases hnext a middle hmiddle with ⟨b, last, hlater, hpost⟩ | ⟨error, last, hlater, hrefused⟩
    · exact .inl ⟨b, last, hruns.bind hlater, hpost⟩
    · exact .inr ⟨error, last, hruns.bind hlater, hrefused⟩
  · exact .inr ⟨error, last, hruns.bind_stop, hrefused⟩

/-- An operation that is known to end goes first. -/
theorem after {a : α} (h : Runs program first (.ok a) middle)
    (hnext : Accords lenient input (next a) middle post) :
    Accords lenient input (program >>= next) first post := by
  have hprogram : Accords lenient input program first
      fun result scanner => result = a ∧ scanner = middle := of_runs h ⟨rfl, rfl⟩
  apply hprogram.bind
  rintro _ _ ⟨rfl, rfl⟩
  exact hnext

theorem of_refuses {error : LexError} {post : α → Scanner → Prop}
    (h : Runs program first (.error (.refused error)) last)
    (hrefused : Refused lenient input error last.stream) :
    Accords lenient input program first post :=
  .inr ⟨error, last, h, hrefused⟩

theorem of_refuses_bind {error : LexError}
    (h : Runs program first (.error (.refused error)) last)
    (hrefused : Refused lenient input error last.stream) :
    Accords lenient input (program >>= next) first post :=
  of_refuses h.bind_stop hrefused

theorem weaken {post weaker : α → Scanner → Prop} (h : Accords lenient input program first post)
    (himplies : ∀ a scanner, post a scanner → weaker a scanner) :
    Accords lenient input program first weaker := by
  rcases h with ⟨a, last, hruns, hpost⟩ | hrefuses
  · exact of_runs hruns (himplies a last hpost)
  · exact .inr hrefuses

/-- Where the scanner comes to may be described by less. -/
theorem relax {state : State} {condition weaker : α → List Char → Prop}
    (h : Accords lenient input program first
      fun a => Stands lenient input state (condition a))
    (himplies : ∀ a rest, condition a rest → weaker a rest) :
    Accords lenient input program first fun a => Stands lenient input state (weaker a) := by
  apply h.weaken
  rintro a _ ⟨rest, last, written, rfl, hreached, hcondition⟩
  exact ⟨rest, last, written, rfl, hreached, himplies a rest hcondition⟩

end Accords

end Scanner

end TemplateLexer
