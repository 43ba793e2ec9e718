import TemplateLexer.CommandLine.FileReport

/-! # The command line

The program reports on the files that its arguments name, one after the other and
independently: a file that cannot be read does not keep the others from being
reported on. The reading of files is left to the caller.
-/

namespace TemplateLexer.CommandLine

/-- What a program leaves behind. -/
structure Output where
  exitCode : Nat
  stdout : String := ""
  stderr : String := ""
deriving DecidableEq

namespace Output

/-- The exit code of an invocation that cannot be carried out. -/
def usageExitCode : Nat := 2

/-- The output of reports in order. The exit code tells whether one has failed. -/
def ofReports (reports : List FileReport) : Output :=
  { exitCode := if reports.any (·.failed) then 1 else 0
    stdout := String.join (reports.map (·.stdout))
    stderr := String.join (reports.map (·.stderr)) }

/-- The output of a usage error, after what was printed before it. -/
def ofUsageError (error : UsageError) (printed : String := "") : Output :=
  { exitCode := usageExitCode, stderr := printed ++ error.message }

end Output

/-- The files that a program can read. -/
abbrev Files := String → Except ReadError String

/-- The report of a command on a path. -/
def report (files : Files) (command : Command) (options : Options) (path : String) :
    FileReport :=
  match files path with
  | .error error => .unreadable path error
  | .ok text => .ofText command options path text

/-- The output of a command that does not exist. It is noticed at the first file
with a text; the files before it, and all files if none has one, are reported as
unreadable. -/
def runUnknown (files : Files) (name : String) (printed : List FileReport) :
    List String → Output
  | [] => .ofReports printed
  | path :: paths =>
    match files path with
    | .error error => runUnknown files name (printed ++ [.unreadable path error]) paths
    | .ok _ => .ofUsageError (.unknownCommand name) (Output.ofReports printed).stderr

/-- Runs the program on its arguments. -/
def run (files : Files) (arguments : List String) : Output :=
  match Invocation.ofArguments arguments with
  | .error error => .ofUsageError error
  | .ok invocation =>
    match Command.ofName? invocation.command with
    | some command =>
      .ofReports (invocation.paths.map (report files command invocation.options))
    | none => runUnknown files invocation.command [] invocation.paths

end TemplateLexer.CommandLine
