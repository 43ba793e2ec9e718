import TemplateLexer.Proofs.FileIndependence

/-! # Usage errors

An invocation that the program cannot carry out has an exit code of its own. What is wrong with it
can be told from the arguments, whatever the files are, but the program looks a command up only
when it has a text to apply it to. If no path can be read, a command that does not exist therefore
goes unnoticed, and the program ends as it does under any command that exists.
-/

namespace TemplateLexer.CommandLine

open Invocation

/-- The names that commands have. -/
def commandNames : List String := ["tokens", "check", "styles"]

/-- Arguments that ask for help or for nothing, have an option that does not exist, or lack a
path. -/
inductive IsMalformed : List String → Prop where
  | noCommand : IsMalformed []
  | help {name : String} (arguments : List String) (h : name = "--help" ∨ name = "-h") :
      IsMalformed (name :: arguments)
  | unknownOption (name : String) {arguments : List String} {option : String}
      (hmem : option ∈ arguments) (hoption : IsOption option)
      (hunknown : ¬ (option = "--lenient" ∨ option = "--expression")) :
      IsMalformed (name :: arguments)
  | noPaths (name : String) {arguments : List String} (h : pathsIn arguments = []) :
      IsMalformed (name :: arguments)

/-- Arguments that the program cannot carry out. -/
inductive IsUsageError : List String → Prop where
  | malformed {arguments : List String} (h : IsMalformed arguments) : IsUsageError arguments
  | unknownCommand {name : String} (arguments : List String) (h : name ∉ commandNames) :
      IsUsageError (name :: arguments)

/-- All that is wrong with the arguments is their command, and no path can be read. -/
def IsUnnoticed (files : Files) : List String → Prop
  | [] => False
  | name :: arguments =>
    name ∉ commandNames ∧ ¬ (name = "--help" ∨ name = "-h") ∧ Admissible arguments ∧
      ∀ path ∈ pathsIn arguments, ∃ error, files path = .error error

theorem Command.ofName?_eq_none_iff {name : String} :
    ofName? name = none ↔ name ∉ commandNames := by
  constructor
  · intro hnone hmem
    simp only [commandNames, List.mem_cons, List.not_mem_nil, or_false] at hmem
    rcases hmem with rfl | rfl | rfl <;> simp [ofName?] at hnone
  · intro hnot
    simp only [commandNames, List.mem_cons, List.not_mem_nil, or_false, not_or] at hnot
    simp [ofName?, hnot]

theorem Command.exists_of_mem {name : String} (h : name ∈ commandNames) :
    ∃ command : Command, name = command.name := by
  simp only [commandNames, List.mem_cons, List.not_mem_nil, or_false] at h
  rcases h with rfl | rfl | rfl
  · exact ⟨.tokens, rfl⟩
  · exact ⟨.check, rfl⟩
  · exact ⟨.styles, rfl⟩

section Arguments

variable {name : String} {arguments : List String}

theorem not_isMalformed_cons_iff :
    ¬ IsMalformed (name :: arguments) ↔
      ¬ (name = "--help" ∨ name = "-h") ∧ Admissible arguments := by
  constructor
  · intro h
    refine ⟨fun hhelp => h (.help arguments hhelp), ?_, fun hpaths => h (.noPaths name hpaths)⟩
    intro option hmem hoption
    apply Decidable.byContradiction
    exact fun hunknown => h (.unknownOption name hmem hoption hunknown)
  · rintro ⟨hhelp, hadmissible⟩ hmalformed
    cases hmalformed with
    | help _ h => exact hhelp h
    | unknownOption _ hmem hoption hunknown => exact hunknown (hadmissible.known _ hmem hoption)
    | noPaths _ h => exact hadmissible.paths h

/-- Malformed arguments are refused before any file is looked at. -/
theorem IsMalformed.exists_error (h : IsMalformed arguments) :
    ∃ error, ofArguments arguments = .error error := by
  cases h with
  | noCommand => exact ⟨_, rfl⟩
  | help arguments hhelp => exact ⟨_, by rw [ofArguments_cons, if_pos (isHelp_iff.mpr hhelp)]⟩
  | @unknownOption name arguments option hmem hoption hunknown =>
      rw [ofArguments_cons]
      split
      next => exact ⟨_, rfl⟩
      next =>
        cases hfind : arguments.find? isUnknown with
        | some _ => exact ⟨_, rfl⟩
        | none =>
            have hnot := List.find?_eq_none.mp hfind option hmem
            rw [← isOption_iff] at hoption
            rw [← isKnown_iff] at hunknown
            simp [isUnknown, hoption, hunknown] at hnot
  | @noPaths name arguments hpaths =>
      rw [ofArguments_cons, hpaths]
      split
      next => exact ⟨_, rfl⟩
      next => cases arguments.find? isUnknown <;> exact ⟨_, rfl⟩

theorem IsMalformed.run_eq (h : IsMalformed arguments) :
    ∃ error, ∀ files, run files arguments = .ofUsageError error := by
  obtain ⟨error, herror⟩ := h.exists_error
  exact ⟨error, fun files => by rw [run, herror]⟩

/-- A command that does not exist is looked for among the files. -/
theorem Admissible.run_of_unknown (h : Admissible arguments)
    (hhelp : ¬ (name = "--help" ∨ name = "-h")) (hname : name ∉ commandNames) (files : Files) :
    run files (name :: arguments) = runUnknown files name [] (pathsIn arguments) := by
  rw [run, h.ofArguments_eq (Bool.eq_false_iff.mpr (mt isHelp_iff.mp hhelp))]
  dsimp only
  rw [Command.ofName?_eq_none_iff.mpr hname]

/-- Admissible arguments are a usage error only because of their command. -/
theorem isUsageError_cons_iff (hhelp : ¬ (name = "--help" ∨ name = "-h"))
    (hadmissible : Admissible arguments) :
    IsUsageError (name :: arguments) ↔ name ∉ commandNames := by
  constructor
  · intro h
    cases h with
    | malformed hmalformed =>
        exact absurd hmalformed (not_isMalformed_cons_iff.mpr ⟨hhelp, hadmissible⟩)
    | unknownCommand _ hname => exact hname
  · exact .unknownCommand arguments

end Arguments

section Files

variable {files : Files} {name : String}

theorem exitCode_ofReports_ne (reports : List FileReport) :
    (Output.ofReports reports).exitCode ≠ 2 := by
  change (if reports.any (·.failed) then 1 else 0) ≠ 2
  split <;> decide

/-- The first text shows that there is no such command. -/
theorem exitCode_runUnknown {path text : String} {paths : List String} (hmem : path ∈ paths)
    (hread : files path = .ok text) (printed : List FileReport) :
    (runUnknown files name printed paths).exitCode = 2 := by
  induction paths generalizing printed with
  | nil => cases hmem
  | cons first rest ih =>
      rw [runUnknown]
      cases hfirst : files first with
      | ok _ => rfl
      | error error =>
          rcases List.mem_cons.mp hmem with rfl | hrest
          · rw [hread] at hfirst
            cases hfirst
          · exact ih hrest _

/-- Without a text the reports are those of any command. -/
theorem runUnknown_of_unreadable {paths : List String}
    (hunreadable : ∀ path ∈ paths, ∃ error, files path = .error error) (command : Command)
    (options : Options) (printed : List FileReport) :
    runUnknown files name printed paths =
      .ofReports (printed ++ paths.map (report files command options)) := by
  induction paths generalizing printed with
  | nil => rw [runUnknown, List.map_nil, List.append_nil]
  | cons first rest ih =>
      obtain ⟨⟨error, herror⟩, hrest⟩ := List.forall_mem_cons.mp hunreadable
      rw [runUnknown, herror, List.map_cons, report, herror]
      dsimp only
      rw [ih hrest, List.append_assoc, List.singleton_append]

/-- A command that does not exist and goes unnoticed is like one that does. -/
theorem IsUnnoticed.run_eq {arguments : List String} (h : IsUnnoticed files (name :: arguments))
    (command : Command) :
    run files (name :: arguments) = run files (command.name :: arguments) := by
  obtain ⟨hname, hhelp, hadmissible, hunreadable⟩ := h
  rw [hadmissible.run_of_unknown hhelp hname, hadmissible.run_eq,
    runUnknown_of_unreadable hunreadable command (requested arguments), List.nil_append]

theorem IsUnnoticed.exitCode_eq {arguments : List String} (h : IsUnnoticed files arguments) :
    (run files arguments).exitCode = 1 := by
  cases arguments with
  | nil => exact h.elim
  | cons name arguments =>
      rw [h.run_eq .check]
      obtain ⟨_, _, hadmissible, hunreadable⟩ := h
      obtain ⟨path, hmem⟩ := List.exists_mem_of_ne_nil _ hadmissible.paths
      apply (CommandLine.exitCode_eq hadmissible files .check).1
      exact ⟨path, hmem, .inl (hunreadable path hmem)⟩

theorem IsUnnoticed.not_isMalformed {arguments : List String} (h : IsUnnoticed files arguments) :
    ¬ IsMalformed arguments := by
  cases arguments with
  | nil => exact h.elim
  | cons name arguments => exact not_isMalformed_cons_iff.mpr ⟨h.2.1, h.2.2.1⟩

/-- Where the arguments are not malformed, all that can be wrong with them is the command. -/
theorem exitCode_eq_two_iff_of_admissible {arguments : List String}
    (hhelp : ¬ (name = "--help" ∨ name = "-h")) (hadmissible : Admissible arguments) :
    (run files (name :: arguments)).exitCode = 2 ↔
      name ∉ commandNames ∧ ¬ IsUnnoticed files (name :: arguments) := by
  by_cases hname : name ∈ commandNames
  · obtain ⟨command, rfl⟩ := Command.exists_of_mem hname
    rw [hadmissible.run_eq]
    simp [exitCode_ofReports_ne, hname]
  · by_cases hread : ∃ path ∈ pathsIn arguments, ∃ text, files path = .ok text
    · obtain ⟨path, hmem, text, hread⟩ := hread
      rw [hadmissible.run_of_unknown hhelp hname, exitCode_runUnknown hmem hread]
      refine iff_of_true rfl ⟨hname, fun hunnoticed => ?_⟩
      obtain ⟨error, herror⟩ := hunnoticed.2.2.2 path hmem
      rw [hread] at herror
      cases herror
    · have hunnoticed : IsUnnoticed files (name :: arguments) := by
        refine ⟨hname, hhelp, hadmissible, fun path hmem => ?_⟩
        cases hpath : files path with
        | error error => exact ⟨error, rfl⟩
        | ok text => exact absurd ⟨path, hmem, text, hpath⟩ hread
      simp [hunnoticed.exitCode_eq, hunnoticed]

end Files

/-- Usage errors have their exit code and no other invocation has it, but for a command that does
not exist when no path can be read. What is wrong with the arguments otherwise does not depend on
the files. -/
theorem exitCode_eq_two_iff (files : Files) (arguments : List String) :
    ((run files arguments).exitCode = 2 ↔
      IsUsageError arguments ∧ ¬ IsUnnoticed files arguments) ∧
    (IsUnnoticed files arguments → (run files arguments).exitCode = 1) ∧
    (IsMalformed arguments → ∀ other, run other arguments = run files arguments) := by
  refine ⟨?_, IsUnnoticed.exitCode_eq, fun hmalformed other => ?_⟩
  · by_cases hmalformed : IsMalformed arguments
    · obtain ⟨error, hrun⟩ := hmalformed.run_eq
      rw [hrun]
      exact iff_of_true rfl
        ⟨.malformed hmalformed, fun hunnoticed => hunnoticed.not_isMalformed hmalformed⟩
    · cases arguments with
      | nil => exact absurd .noCommand hmalformed
      | cons name arguments =>
          obtain ⟨hhelp, hadmissible⟩ := not_isMalformed_cons_iff.mp hmalformed
          rw [exitCode_eq_two_iff_of_admissible hhelp hadmissible,
            isUsageError_cons_iff hhelp hadmissible]
  · obtain ⟨error, hrun⟩ := hmalformed.run_eq
    rw [hrun, hrun]

/-- A command that does not exist is no usage error to the program if the only path is missing. -/
theorem exitCode_unnoticed_missing :
    ¬ ((run (fun _ => .error (.refused "No such file or directory" 2))
      ["frobnicate", "missing.cm"]).exitCode = 2 ↔ IsUsageError ["frobnicate", "missing.cm"]) := by
  intro h
  have husage : IsUsageError ["frobnicate", "missing.cm"] :=
    .unknownCommand ["missing.cm"] (by decide)
  exact absurd (h.mpr husage) (by decide +kernel)

end TemplateLexer.CommandLine
