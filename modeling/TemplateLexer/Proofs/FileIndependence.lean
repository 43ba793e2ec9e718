import TemplateLexer.CommandLine

/-! # Files are reported on independently

The program goes through its arguments and then through its files, and prints as it goes. Told that
way, what it has printed and whether a file has failed is carried from each file to the next, and an
option could matter only to the paths behind it. Yet a file is reported on as if it were the only
one: of the arguments only the set of options matters to it, and of the other files nothing does.
-/

namespace TemplateLexer.CommandLine

open Invocation

namespace Command

/-- The name of a command. -/
def name : Command → String
  | .tokens => "tokens"
  | .check => "check"
  | .styles => "styles"

theorem ofName?_name (command : Command) : ofName? command.name = some command := by
  cases command <;> decide

theorem isHelp_name (command : Command) : isHelp command.name = false := by
  cases command <;> decide

end Command

/-- An argument is an option and no path. -/
def IsOption (argument : String) : Prop := ['-', '-'] <+: argument.toList

instance (argument : String) : Decidable (IsOption argument) :=
  inferInstanceAs (Decidable (['-', '-'] <+: argument.toList))

/-- The paths among arguments. -/
def pathsIn (arguments : List String) : List String := arguments.filter (¬ IsOption ·)

/-- What the options among arguments ask for, wherever they stand. -/
def requested (arguments : List String) : Options :=
  { lenient := "--lenient" ∈ arguments
    grammar := if "--expression" ∈ arguments then .expression else .markup }

section Reading

variable {argument : String}

theorem isOption_iff : isOption argument ↔ IsOption argument := List.isPrefixOf_iff_prefix

theorem isKnown_iff : isKnown argument ↔ argument = "--lenient" ∨ argument = "--expression" := by
  simp [isKnown, lenientOption, expressionOption]

theorem isHelp_iff : isHelp argument ↔ argument = "--help" ∨ argument = "-h" := by
  simp [isHelp]

theorem filter_not_isOption (arguments : List String) :
    arguments.filter (!isOption ·) = pathsIn arguments := by
  apply List.filter_congr
  intro argument _
  rw [Bool.eq_iff_iff, Bool.not_eq_true', ← Bool.not_eq_true, isOption_iff, decide_eq_true_iff]

theorem optionsOf_eq (arguments : List String) : optionsOf arguments = requested arguments := by
  simp [optionsOf, requested, lenientOption, expressionOption]

end Reading

/-- Whether an argument is an option that does not exist. -/
def isUnknown (argument : String) : Bool := isOption argument && !isKnown argument

theorem ofArguments_cons (name : String) (arguments : List String) :
    ofArguments (name :: arguments) =
      if isHelp name then .error .noCommand
      else
        match arguments.find? isUnknown with
        | some option => .error (.unknownOption option)
        | none =>
          if (pathsIn arguments).isEmpty then .error .noPaths
          else .ok
            { command := name, options := requested arguments, paths := pathsIn arguments } := by
  rw [← optionsOf_eq, ← filter_not_isOption]
  rfl

section Loops

/-- What is known of an invocation after some of its arguments. -/
structure Request where
  options : Options := {}
  paths : List String := []

namespace Request

/-- Reads one more argument. -/
def read (request : Request) (argument : String) : Except UsageError Request :=
  if argument == lenientOption then
    .ok { request with options := { request.options with lenient := true } }
  else if argument == expressionOption then
    .ok { request with options := { request.options with grammar := .expression } }
  else if isOption argument then .error (.unknownOption argument)
  else .ok { request with paths := request.paths ++ [argument] }

/-- What is known after more arguments, all of them paths or options that exist. -/
def after (request : Request) (arguments : List String) : Request :=
  { options :=
      { lenient := request.options.lenient || arguments.contains lenientOption
        grammar :=
          if arguments.contains expressionOption then .expression else request.options.grammar }
    paths := request.paths ++ pathsIn arguments }

/-- An argument is refused if it is an option that does not exist, and is read as what it says
otherwise. -/
theorem read_eq (request : Request) (argument : String) :
    request.read argument =
      if isUnknown argument then .error (.unknownOption argument)
      else .ok (request.after [argument]) := by
  have hdistinct : lenientOption ≠ expressionOption := by decide
  by_cases hlenient : argument = lenientOption
  · subst hlenient
    have hknown : isUnknown lenientOption = false := by decide
    have hoption : IsOption lenientOption := by decide
    simp [read, after, pathsIn, hknown, hoption, hdistinct.symm]
  by_cases hexpression : argument = expressionOption
  · subst hexpression
    have hknown : isUnknown expressionOption = false := by decide
    have hoption : IsOption expressionOption := by decide
    simp [read, after, pathsIn, hknown, hoption, hdistinct, hdistinct.symm]
  by_cases hoption : isOption argument
  · have hunknown : isUnknown argument := by
      simp [isUnknown, isKnown, hoption, hlenient, hexpression]
    simp [read, hlenient, hexpression, hoption, hunknown]
  · have hknown : isUnknown argument = false := by simp [isUnknown, hoption]
    have hpath : ¬ IsOption argument := mt isOption_iff.mpr hoption
    simp [read, after, pathsIn, hknown, hoption, hpath, hlenient, hexpression, Ne.symm hlenient,
      Ne.symm hexpression]

theorem after_after (request : Request) (first second : List String) :
    (request.after first).after second = request.after (first ++ second) := by
  have hgrammar : (if second.contains expressionOption then Grammar.expression
      else if first.contains expressionOption then .expression else request.options.grammar) =
        if (first ++ second).contains expressionOption then .expression
        else request.options.grammar := by
    by_cases hsecond : expressionOption ∈ second <;> simp [hsecond]
  have hlenient : (first ++ second).contains lenientOption =
      (first.contains lenientOption || second.contains lenientOption) := by simp
  have hpaths : pathsIn (first ++ second) = pathsIn first ++ pathsIn second :=
    List.filter_append first second
  simp only [after, hlenient, hgrammar, hpaths, Bool.or_assoc, List.append_assoc]

theorem options_after (arguments : List String) :
    (after {} arguments).options = requested arguments := by
  rw [← optionsOf_eq]
  simp [after, optionsOf]

theorem paths_after (arguments : List String) : (after {} arguments).paths = pathsIn arguments :=
  List.nil_append _

/-- The loop over the arguments ends at the first option that does not exist. -/
theorem foldlM_read (request : Request) (arguments : List String) :
    arguments.foldlM read request =
      match arguments.find? isUnknown with
      | some option => .error (.unknownOption option)
      | none => .ok (request.after arguments) := by
  induction arguments generalizing request with
  | nil =>
      have hnone : request.after [] = request := by simp [after, pathsIn]
      rw [List.find?_nil]
      dsimp only
      rw [hnone]
      rfl
  | cons argument arguments ih =>
      rw [List.foldlM_cons, read_eq, List.find?_cons]
      cases hunknown : isUnknown argument with
      | true => rfl
      | false =>
          have hrest := ih (request.after [argument])
          rw [after_after, List.singleton_append] at hrest
          exact hrest

end Request

/-- What has been printed after some of the files, and whether one of them has failed. -/
structure Session where
  stdout : String := ""
  stderr : String := ""
  failed : Bool := false

namespace Session

/-- Prints one more report. -/
def print (session : Session) (report : FileReport) : Session :=
  { stdout := session.stdout ++ report.stdout
    stderr := session.stderr ++ report.stderr
    failed := session.failed || report.failed }

/-- What is left behind when there are no more files. -/
def output (session : Session) : Output :=
  { exitCode := if session.failed then 1 else 0
    stdout := session.stdout
    stderr := session.stderr }

/-- Goes through files. Only a file with a text shows that a command does not exist. -/
def goThrough (files : Files) (name : String) (options : Options) (session : Session) :
    List String → Output
  | [] => session.output
  | path :: paths =>
    match files path with
    | .error error => goThrough files name options (session.print (.unreadable path error)) paths
    | .ok text =>
      match Command.ofName? name with
      | some command =>
        goThrough files name options (session.print (.ofText command options path text)) paths
      | none =>
        { exitCode := Output.usageExitCode
          stdout := session.stdout
          stderr := session.stderr ++ (UsageError.unknownCommand name).message }

/-- What has been printed by a list of reports. -/
def after (session : Session) (reports : List FileReport) : Session :=
  reports.foldl print session

theorem after_eq (session : Session) (reports : List FileReport) :
    session.after reports =
      { stdout := session.stdout ++ (Output.ofReports reports).stdout
        stderr := session.stderr ++ (Output.ofReports reports).stderr
        failed := session.failed || reports.any (·.failed) } := by
  induction reports generalizing session with
  | nil => simp [after, Output.ofReports]
  | cons report reports ih =>
      have hrest := ih (session.print report)
      rw [after, List.foldl_cons]
      rw [after] at hrest
      rw [hrest]
      simp [print, Output.ofReports, String.append_assoc, Bool.or_assoc]

theorem output_after (reports : List FileReport) :
    (after {} reports).output = .ofReports reports := by
  rw [after_eq]
  simp [output, Output.ofReports]

variable {files : Files} {name : String} {options : Options}

/-- The loop over the files reports on each of them. -/
theorem goThrough_of_command {command : Command} (hcommand : Command.ofName? name = some command)
    (session : Session) (paths : List String) :
    goThrough files name options session paths =
      (session.after (paths.map (report files command options))).output := by
  induction paths generalizing session with
  | nil => rfl
  | cons path paths ih =>
      rw [goThrough, List.map_cons, after, List.foldl_cons, report]
      cases files path with
      | error error => exact ih _
      | ok text =>
          rw [hcommand]
          exact ih _

theorem stdout_of_forall {reports : List FileReport} (h : ∀ report ∈ reports, report.stdout = "") :
    (Output.ofReports reports).stdout = "" := by
  induction reports with
  | nil => simp [Output.ofReports]
  | cons report reports ih =>
      obtain ⟨hreport, hreports⟩ := List.forall_mem_cons.mp h
      simpa [Output.ofReports, hreport] using ih hreports

/-- Before a command that does not exist is noticed, nothing comes to the stream of the tokens. -/
theorem goThrough_of_none (hname : Command.ofName? name = none) {printed : List FileReport}
    (hprinted : ∀ report ∈ printed, report.stdout = "") (paths : List String) :
    goThrough files name options (after {} printed) paths =
      runUnknown files name printed paths := by
  induction paths generalizing printed with
  | nil => exact output_after printed
  | cons path paths ih =>
      rw [goThrough, runUnknown]
      cases files path with
      | error error =>
          have hmore : ∀ report ∈ printed ++ [.unreadable path error], report.stdout = "" :=
            List.forall_mem_append.mpr ⟨hprinted, List.forall_mem_singleton.mpr rfl⟩
          have hprint : (after {} printed).print (.unreadable path error) =
              after {} (printed ++ [.unreadable path error]) := by
            rw [after, after, List.foldl_append]
            rfl
          dsimp only
          rw [hprint, ih hmore]
      | ok text =>
          rw [hname, after_eq, stdout_of_forall hprinted]
          simp [Output.ofUsageError]

end Session

/-- Runs the program as a loop over the arguments and a loop over the files, which prints as it
goes. -/
def runInOrder (files : Files) : List String → Output
  | [] => .ofUsageError .noCommand
  | name :: arguments =>
    if isHelp name then .ofUsageError .noCommand
    else
      match arguments.foldlM Request.read {} with
      | .error error => .ofUsageError error
      | .ok request =>
        if request.paths.isEmpty then .ofUsageError .noPaths
        else Session.goThrough files name request.options {} request.paths

/-- The loops come to what the program leaves behind. -/
theorem run_eq_runInOrder (files : Files) (arguments : List String) :
    run files arguments = runInOrder files arguments := by
  cases arguments with
  | nil => rfl
  | cons name arguments =>
      rw [run, ofArguments_cons, runInOrder, Request.foldlM_read]
      by_cases hhelp : isHelp name
      · rw [if_pos hhelp, if_pos hhelp]
      rw [if_neg hhelp, if_neg hhelp]
      cases arguments.find? isUnknown with
      | some option => rfl
      | none =>
          dsimp only
          rw [Request.paths_after, Request.options_after]
          by_cases hempty : (pathsIn arguments).isEmpty
          · rw [if_pos hempty, if_pos hempty]
          rw [if_neg hempty, if_neg hempty]
          dsimp only
          cases hcommand : Command.ofName? name with
          | some command =>
              rw [Session.goThrough_of_command hcommand, Session.output_after]
          | none => exact (Session.goThrough_of_none hcommand (by simp) _).symm

end Loops

/-- Arguments behind a command that it can be carried out with: every option exists, and there is a
path. -/
structure Admissible (arguments : List String) : Prop where
  known : ∀ argument ∈ arguments, IsOption argument →
    argument = "--lenient" ∨ argument = "--expression"
  paths : pathsIn arguments ≠ []

/-- The same options are among two lists of arguments, wherever they stand and however often. -/
def SameOptions (first second : List String) : Prop :=
  ∀ option, IsOption option → (option ∈ first ↔ option ∈ second)

theorem sameOptions_iff {first second : List String} :
    SameOptions first second ↔
      (∀ option ∈ first, IsOption option → option ∈ second) ∧
        ∀ option ∈ second, IsOption option → option ∈ first := by
  constructor
  · intro h
    exact ⟨fun option hmem hoption => (h option hoption).mp hmem,
      fun option hmem hoption => (h option hoption).mpr hmem⟩
  · rintro ⟨hfirst, hsecond⟩ option hoption
    exact ⟨fun hmem => hfirst option hmem hoption, fun hmem => hsecond option hmem hoption⟩

instance (first second : List String) : Decidable (SameOptions first second) :=
  decidable_of_iff _ sameOptions_iff.symm

/-- A file cannot be read, or its text is refused under the options. -/
def Fails (files : Files) (options : Options) (path : String) : Prop :=
  (∃ error, files path = .error error) ∨
    ∃ text, files path = .ok text ∧ (lex options text).error ≠ none

section Reports

variable {files : Files} {command : Command} {options : Options} {path : String}
  {arguments other : List String}

theorem FileReport.failed_ofText (command : Command) (options : Options) (path text : String) :
    (ofText command options path text).failed = !(lex options text).isOk := by
  cases command with
  | tokens => rfl
  | check => rfl
  | styles => simp [ofText, styles, highlight, Lexed.isOk]

/-- A report tells whether its file fails, whatever the command. -/
theorem failed_report_iff :
    (report files command options path).failed ↔ Fails files options path := by
  rw [report, Fails]
  cases files path with
  | error error => simp [FileReport.unreadable]
  | ok text => simp [FileReport.failed_ofText, Lexed.isOk, Option.isSome_iff_ne_none]

theorem not_fails_of_error_eq_none {text : String} (hread : files path = .ok text)
    (hnone : (lex options text).error = none) : ¬ Fails files options path := by
  rintro (⟨error, herror⟩ | ⟨other, hother, herror⟩)
  · rw [hread] at herror
    cases herror
  · rw [hread] at hother
    cases hother
    exact herror hnone

theorem SameOptions.requested_eq (h : SameOptions arguments other) :
    requested arguments = requested other := by
  have hlenient : "--lenient" ∈ arguments ↔ "--lenient" ∈ other := h _ (by decide)
  have hexpression : "--expression" ∈ arguments ↔ "--expression" ∈ other := h _ (by decide)
  simp [requested, hlenient, hexpression]

/-- Whether arguments are admissible is a matter of their options as a set, and of their paths. -/
theorem Admissible.of_sameOptions (h : Admissible arguments)
    (hoptions : SameOptions arguments other) (hpaths : pathsIn other ≠ []) : Admissible other where
  known := fun argument hmem hoption =>
    h.known argument ((hoptions argument hoption).mpr hmem) hoption
  paths := hpaths

/-- Admissible arguments are read, whatever the command in front of them is. -/
theorem Admissible.ofArguments_eq (h : Admissible arguments) {name : String}
    (hhelp : isHelp name = false) :
    ofArguments (name :: arguments) =
      .ok { command := name, options := requested arguments, paths := pathsIn arguments } := by
  have hknown : arguments.find? isUnknown = none := by
    rw [List.find?_eq_none]
    intro argument hmem
    have hoption := h.known argument hmem
    rw [← isOption_iff, ← isKnown_iff] at hoption
    simpa [isUnknown] using hoption
  have hpaths : (pathsIn arguments).isEmpty = false := List.isEmpty_eq_false_iff.mpr h.paths
  rw [ofArguments_cons, hhelp, hknown, hpaths]
  rfl

/-- A command that is carried out reports on every path, under all of the options. -/
theorem Admissible.run_eq (h : Admissible arguments) (files : Files) (command : Command) :
    run files (command.name :: arguments) =
      .ofReports ((pathsIn arguments).map (report files command (requested arguments))) := by
  rw [run, h.ofArguments_eq command.isHelp_name]
  dsimp only
  rw [command.ofName?_name]

/-- What is printed of one path. -/
theorem run_alone_eq (h : Admissible arguments) (hoptions : SameOptions arguments other)
    (hpath : pathsIn other = [path]) :
    (run files (command.name :: other)).stdout =
        (report files command (requested arguments) path).stdout ∧
      (run files (command.name :: other)).stderr =
        (report files command (requested arguments) path).stderr := by
  have hother : Admissible other := h.of_sameOptions hoptions (by simp [hpath])
  rw [hother.run_eq, hpath, hoptions.requested_eq]
  simp [Output.ofReports]

/-- Both streams are made of what is printed of the single paths. -/
theorem streams_eq_join (h : Admissible arguments) {alone : String → List String}
    (hpaths : ∀ path ∈ pathsIn arguments, pathsIn (alone path) = [path])
    (hoptions : ∀ path ∈ pathsIn arguments, SameOptions arguments (alone path)) :
    (run files (command.name :: arguments)).stdout =
        String.join ((pathsIn arguments).map fun path =>
          (run files (command.name :: alone path)).stdout) ∧
      (run files (command.name :: arguments)).stderr =
        String.join ((pathsIn arguments).map fun path =>
          (run files (command.name :: alone path)).stderr) := by
  rw [h.run_eq]
  dsimp only [Output.ofReports]
  rw [List.map_map, List.map_map]
  constructor
  · apply congrArg String.join
    apply List.map_congr_left
    intro path hmem
    exact (run_alone_eq h (hoptions path hmem) (hpaths path hmem)).1.symm
  · apply congrArg String.join
    apply List.map_congr_left
    intro path hmem
    exact (run_alone_eq h (hoptions path hmem) (hpaths path hmem)).2.symm

/-- The exit code tells whether a file fails. -/
theorem exitCode_eq (h : Admissible arguments) (files : Files) (command : Command) :
    ((∃ path ∈ pathsIn arguments, Fails files (requested arguments) path) →
      (run files (command.name :: arguments)).exitCode = 1) ∧
    ((∀ path ∈ pathsIn arguments, ¬ Fails files (requested arguments) path) →
      (run files (command.name :: arguments)).exitCode = 0) := by
  have hany :
      ((pathsIn arguments).map (report files command (requested arguments))).any (·.failed) ↔
        ∃ path ∈ pathsIn arguments, Fails files (requested arguments) path := by
    simp only [List.any_map, List.any_eq_true, Function.comp_apply, failed_report_iff]
  rw [h.run_eq]
  constructor
  · intro hfails
    exact if_pos (hany.mpr hfails)
  · intro hnone
    apply if_neg
    intro hfails
    obtain ⟨path, hmem, hpath⟩ := hany.mp hfails
    exact hnone path hmem hpath

theorem exitCode_congr (h : Admissible arguments) (files : Files) (first second : Command) :
    (run files (first.name :: arguments)).exitCode =
      (run files (second.name :: arguments)).exitCode := by
  obtain ⟨hfirstOne, hfirstZero⟩ := exitCode_eq h files first
  obtain ⟨hsecondOne, hsecondZero⟩ := exitCode_eq h files second
  by_cases hfails : ∃ path ∈ pathsIn arguments, Fails files (requested arguments) path
  · rw [hfirstOne hfails, hsecondOne hfails]
  · have hnone : ∀ path ∈ pathsIn arguments, ¬ Fails files (requested arguments) path := by
      intro path hmem hpath
      exact hfails ⟨path, hmem, hpath⟩
    rw [hfirstZero hnone, hsecondZero hnone]

end Reports

/-- The program reports on every file as if it were the only one, the places and repetitions of
options make no difference, and the exit code is the same for all commands: it tells whether a file
cannot be read or is refused. -/
theorem run_independent (files : Files) (command : Command) {arguments : List String}
    (h : Admissible arguments) :
    (∀ alone : String → List String,
      (∀ path ∈ pathsIn arguments, pathsIn (alone path) = [path]) →
      (∀ path ∈ pathsIn arguments, SameOptions arguments (alone path)) →
      (run files (command.name :: arguments)).stdout =
          String.join ((pathsIn arguments).map fun path =>
            (run files (command.name :: alone path)).stdout) ∧
        (run files (command.name :: arguments)).stderr =
          String.join ((pathsIn arguments).map fun path =>
            (run files (command.name :: alone path)).stderr)) ∧
    ((∃ path ∈ pathsIn arguments, Fails files (requested arguments) path) →
      (run files (command.name :: arguments)).exitCode = 1) ∧
    ((∀ path ∈ pathsIn arguments, ¬ Fails files (requested arguments) path) →
      (run files (command.name :: arguments)).exitCode = 0) ∧
    (∀ other, pathsIn other = pathsIn arguments → SameOptions arguments other →
      run files (command.name :: other) = run files (command.name :: arguments)) ∧
    ∀ other : Command, (run files (other.name :: arguments)).exitCode =
      (run files (command.name :: arguments)).exitCode := by
  obtain ⟨hone, hzero⟩ := exitCode_eq h files command
  refine ⟨fun _ hpaths hoptions => streams_eq_join h hpaths hoptions, hone, hzero, ?_,
    fun other => exitCode_congr h files other command⟩
  intro other hpaths hoptions
  have hother : Admissible other := h.of_sameOptions hoptions (hpaths ▸ h.paths)
  rw [hother.run_eq, h.run_eq, hpaths, hoptions.requested_eq]

/-- Three files, of which one cannot be read, one is a template to a lenient reader only, and one is
no template but an expression. -/
def threeFiles : Files := fun path =>
  if path = "bracket" then .ok "\x7d"
  else if path = "tag" then .ok "<"
  else .error (.refused "No such file or directory" 2)

/-- Options between the paths reach the paths in front of them, and the file that cannot be read
keeps no other from being reported on. Each option makes a file pass that fails without it. -/
theorem run_independent_threeFiles :
    ((run threeFiles ["tokens", "bracket", "--lenient", "none", "--lenient", "tag"]).stdout =
        String.join (["bracket", "none", "tag"].map fun path =>
          (run threeFiles ["tokens", "--lenient", path]).stdout) ∧
      (run threeFiles ["tokens", "bracket", "--lenient", "none", "--lenient", "tag"]).stderr =
        String.join (["bracket", "none", "tag"].map fun path =>
          (run threeFiles ["tokens", "--lenient", path]).stderr)) ∧
      (run threeFiles ["tokens", "bracket", "--lenient", "none", "--lenient", "tag"]).exitCode = 1 ∧
      run threeFiles ["tokens", "--lenient", "bracket", "none", "tag"] =
        run threeFiles ["tokens", "bracket", "--lenient", "none", "--lenient", "tag"] ∧
      (run threeFiles ["check", "bracket", "--lenient", "none", "--lenient", "tag"]).exitCode =
        (run threeFiles ["tokens", "bracket", "--lenient", "none", "--lenient", "tag"]).exitCode ∧
      ((run threeFiles ["check", "bracket"]).exitCode = 1 ∧
        (run threeFiles ["check", "bracket", "--lenient"]).exitCode = 0) ∧
      (run threeFiles ["styles", "tag", "--lenient"]).exitCode = 1 ∧
        (run threeFiles ["styles", "tag", "--expression"]).exitCode = 0 := by
  have hadmissible : Admissible ["bracket", "--lenient", "none", "--lenient", "tag"] :=
    ⟨by decide, by decide⟩
  have hpaths : pathsIn ["bracket", "--lenient", "none", "--lenient", "tag"] =
      ["bracket", "none", "tag"] := by decide
  obtain ⟨hstreams, hone, _, hmoved, hcommands⟩ :=
    run_independent threeFiles .tokens hadmissible
  rw [hpaths] at hstreams hone hmoved
  refine ⟨hstreams (fun path => ["--lenient", path]) (by decide) (by decide),
    hone ⟨"none", by decide, .inl ⟨_, rfl⟩⟩, hmoved _ (by decide) (by decide), hcommands .check,
    ⟨?_, ?_⟩, ?_, ?_⟩
  · have hsingle : Admissible ["bracket"] := ⟨by decide, by decide⟩
    apply (run_independent threeFiles .check hsingle).2.1
    exact ⟨"bracket", by decide, .inr ⟨_, rfl, by decide +kernel⟩⟩
  · have hlenient : Admissible ["bracket", "--lenient"] := ⟨by decide, by decide⟩
    apply (run_independent threeFiles .check hlenient).2.2.1
    intro path hmem
    obtain rfl := List.mem_singleton.mp (show path ∈ ["bracket"] from hmem)
    exact not_fails_of_error_eq_none rfl (by decide +kernel)
  · have hlenient : Admissible ["tag", "--lenient"] := ⟨by decide, by decide⟩
    apply (run_independent threeFiles .styles hlenient).2.1
    exact ⟨"tag", by decide, .inr ⟨_, rfl, by decide +kernel⟩⟩
  · have hexpression : Admissible ["tag", "--expression"] := ⟨by decide, by decide⟩
    apply (run_independent threeFiles .styles hexpression).2.2.1
    intro path hmem
    obtain rfl := List.mem_singleton.mp (show path ∈ ["tag"] from hmem)
    exact not_fails_of_error_eq_none rfl (by decide +kernel)

end TemplateLexer.CommandLine
