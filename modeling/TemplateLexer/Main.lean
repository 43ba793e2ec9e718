import TemplateLexer.CommandLine

/-! # The program

Reads the files that the arguments name, and prints what the command line reports
of them.
-/

namespace TemplateLexer.CommandLine

/-- The number that the system has for an error. It arrives negated for some
operations, as a word of 32 bits. -/
def systemNumber (code : UInt32) : Nat :=
  if code.toNat < 0x80000000 then code.toNat else 0x100000000 - code.toNat

/-- A refusal of the system. Its reason is written as a sentence begins. -/
def ReadError.ofSystem (code : UInt32) (reason : String) : ReadError :=
  .refused reason.capitalize (systemNumber code)

/-- The refusal that an error of the file system stands for. -/
def ReadError.ofIOError : IO.Error → ReadError
  | .noFileOrDirectory _ code reason | .interrupted _ code reason
  | .inappropriateType _ code reason | .invalidArgument _ code reason
  | .permissionDenied _ code reason | .resourceExhausted _ code reason
  | .noSuchThing _ code reason | .alreadyExists _ code reason
  | .hardwareFault code reason | .resourceBusy code reason | .resourceVanished code reason
  | .timeExpired code reason | .illegalOperation code reason | .protocolError code reason
  | .unsatisfiedConstraints code reason | .unsupportedOperation code reason
  | .otherError code reason => .ofSystem code reason
  | .unexpectedEof => .ofSystem 0 "unexpected end of file"
  | .userError reason => .ofSystem 0 reason

/-- Reads a file as text. -/
def readText (path : String) : IO (Except ReadError String) := do
  match ← (IO.FS.readBinFile path).toBaseIO with
  | .ok bytes => return decode bytes
  | .error error => return .error (.ofIOError error)

/-- The paths that a program with these arguments reads. -/
def pathsOf (arguments : List String) : List String :=
  match Invocation.ofArguments arguments with
  | .ok invocation => invocation.paths
  | .error _ => []

end TemplateLexer.CommandLine

/-- Runs the program. -/
def main (arguments : List String) : IO UInt32 := do
  let paths := TemplateLexer.CommandLine.pathsOf arguments
  let contents ← paths.mapM TemplateLexer.CommandLine.readText
  let files : TemplateLexer.CommandLine.Files := fun path =>
    ((paths.zip contents).lookup path).getD (.error .notText)
  let output := TemplateLexer.CommandLine.run files arguments
  (← IO.getStdout).putStr output.stdout
  (← IO.getStderr).putStr output.stderr
  return output.exitCode.toUInt32
