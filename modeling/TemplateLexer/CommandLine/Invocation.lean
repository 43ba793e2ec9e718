import TemplateLexer.Lex

/-! # Invocations

What the arguments of the program ask for. Options and paths may come in any
order after the command.
-/

namespace TemplateLexer.CommandLine

/-- What to report of a file. -/
inductive Command where
  | tokens
  | check
  | styles
deriving DecidableEq

/-- The command of a name. -/
def Command.ofName? (name : String) : Option Command :=
  if name == "tokens" then some .tokens
  else if name == "check" then some .check
  else if name == "styles" then some .styles
  else none

/-- What can be wrong with an invocation. -/
inductive UsageError where
  /-- There is no command, or help is asked for. -/
  | noCommand
  | unknownOption (option : String)
  | noPaths
  | unknownCommand (name : String)
deriving DecidableEq

/-- How to use the program. -/
def usage : String :=
  "Usage: cmlex <command> [--lenient] [--expression] [files...]\n" ++
  "\n" ++
  "Commands:\n" ++
  "  tokens  Print every token with its span and kind\n" ++
  "  check   Check that file(s) lex without errors\n" ++
  "  styles  Print the highlight style of every range\n" ++
  "\n" ++
  "Options:\n" ++
  "  --lenient     Tolerate unescaped '\x7d' in text\n" ++
  "  --expression  Lex input as a bare expression\n" ++
  "\n" ++
  "Examples:\n" ++
  "  cmlex check page.cm\n" ++
  "  cmlex tokens --lenient page.cm\n"

/-- What is printed of a usage error. -/
def UsageError.message : UsageError → String
  | .noCommand => usage
  | .unknownOption option => s!"Unknown option: {option}\n"
  | .noPaths => "Error: no files specified\n"
  | .unknownCommand name => s!"Unknown command: {name}\n"

/-- What the arguments ask for. The command is only looked up when there is a text
to apply it to. -/
structure Invocation where
  command : String
  options : Options
  paths : List String
deriving DecidableEq

namespace Invocation

/-- The option to be lenient. -/
def lenientOption : String := "--lenient"

/-- The option to read files as expressions. -/
def expressionOption : String := "--expression"

/-- Whether an argument is an option and no path. -/
def isOption (argument : String) : Bool := ['-', '-'].isPrefixOf argument.toList

/-- Whether an option exists. -/
def isKnown (option : String) : Bool := option == lenientOption || option == expressionOption

/-- Whether a command asks for help. -/
def isHelp (command : String) : Bool := command == "--help" || command == "-h"

/-- The options that are among the arguments; their places do not matter. -/
def optionsOf (arguments : List String) : Options :=
  { lenient := arguments.contains lenientOption
    grammar := if arguments.contains expressionOption then .expression else .markup }

/-- Reads the arguments. The first option that does not exist is an error, and so
is a lack of paths. -/
def ofArguments : List String → Except UsageError Invocation
  | [] => .error .noCommand
  | command :: arguments =>
    if isHelp command then .error .noCommand
    else
      match arguments.find? fun argument => isOption argument && !isKnown argument with
      | some option => .error (.unknownOption option)
      | none =>
        let paths := arguments.filter (!isOption ·)
        if paths.isEmpty then .error .noPaths
        else .ok { command, options := optionsOf arguments, paths }

end Invocation

end TemplateLexer.CommandLine
