import TemplateLexer.Markup.Step.Content
import TemplateLexer.Markup.Step.Tag
import TemplateLexer.Markup.Step.Value

/-! # Runs of the markup lexer

A run repeats steps until the input ends or is refused. It comes to an end because
every step that goes on leaves less to read.
-/

namespace TemplateLexer.Markup

/-- The step at the end of the input. Only content outside of all subtrees may
end there. -/
def Step.atEnd : State → Step
  | .content 0 => .finished
  | .content (_ + 1) => .refused .unterminatedSubtree []
  | .tag _ | .tagEnd _ => .refused .unterminatedTag []
  | .value _ _ => .refused .unsupportedAttributeValue []

/-- One step. A blank is a token of its own wherever it stands. -/
def step (lenient : Bool) (state : State) : List Char → Step
  | [] => .atEnd state
  | c :: rest =>
    if isBlank c then .advanced [.blanks [c]] state rest
    else
      match state with
      | .content depth => .content lenient depth c rest
      | .tag depth => .tag depth c rest
      | .tagEnd depth => .tagEnd depth c rest
      | .value name depth => .value name depth c rest

/-- A step that goes on leaves less to read. -/
theorem step_leavesLess (lenient : Bool) (state : State) (text : List Char) :
    (step lenient state text).LeavesLess text.length := by
  cases text with
  | nil => rcases state with ⟨_ | _⟩ | _ | _ | _ <;> rintro _ _ _ ⟨⟩
  | cons c rest =>
      simp only [step]
      split
      next => exact Step.leavesLess_advanced (by simp)
      next hc =>
        cases state with
        | content depth => exact Step.content_leavesLess lenient depth rest (by simpa using hc)
        | tag depth => exact Step.tag_leavesLess depth c rest
        | tagEnd depth => exact Step.tagEnd_leavesLess depth c rest
        | value name depth => exact Step.value_leavesLess name depth c rest

/-- Reads a text from a state on. The result holds the fragments in order, and the
failure if the text is refused. -/
def run (lenient : Bool) (state : State) (text : List Char) : List Fragment × Option Failure :=
  match _hstep : step lenient state text with
  | .finished => ([], none)
  | .failed emitted failure => (emitted, some failure)
  | .advanced emitted next rest =>
    let (fragments, failure) := run lenient next rest
    (emitted ++ fragments, failure)
termination_by text.length
decreasing_by exact step_leavesLess lenient state text emitted next rest _hstep

/-- A run is its first step, and a run from there if that step goes on. -/
theorem run_eq (lenient : Bool) (state : State) (text : List Char) :
    run lenient state text =
      match step lenient state text with
      | .finished => ([], none)
      | .failed emitted failure => (emitted, some failure)
      | .advanced emitted next rest =>
        (emitted ++ (run lenient next rest).1, (run lenient next rest).2) := by
  rw [run]
  split <;> simp_all

end TemplateLexer.Markup
