import SsaIr.CommandLine.Run

/-!
# The program

Reads the arguments, the input file and, if asked to, writes the output file; all else is decided
by the command. The exit status is 0 on success, 1 after a failure and 2 if the arguments ask for
no command.
-/

namespace SsaIr.CommandLine

/-- The fault that the system gives a number. -/
def FileFault.ofNumber (reason : String) (number : Nat) : FileFault :=
  let known := [notFound, permissionDenied, notDirectory, isDirectory, nameTooLong]
  (known.find? (·.code = some number)).getD { reason, code := some number }

/-- The number of a system error, which some operations report negated. -/
def systemNumber (code : UInt32) : Nat :=
  if code < 0x80000000 then code.toNat else 0x100000000 - code.toNat

/-- The fault that the system reports. -/
def FileFault.ofSystem : IO.Error → FileFault
  | .alreadyExists _ code reason | .otherError code reason | .resourceBusy code reason
  | .resourceVanished code reason | .unsupportedOperation code reason
  | .hardwareFault code reason | .unsatisfiedConstraints code reason
  | .illegalOperation code reason | .protocolError code reason | .timeExpired code reason
  | .interrupted _ code reason | .noFileOrDirectory _ code reason
  | .invalidArgument _ code reason | .permissionDenied _ code reason
  | .resourceExhausted _ code reason | .inappropriateType _ code reason
  | .noSuchThing _ code reason => ofNumber reason (systemNumber code)
  | .unexpectedEof => { reason := "unexpected end of file" }
  | .userError _ => invalidText

/-- The text of a file, or why it cannot be read. -/
def readText (path : String) : IO (Except FileFault String) := do
  match ← (IO.FS.readFile path).toBaseIO with
  | .ok text => return .ok text
  | .error e => return .error (.ofSystem e)

/-- Write a file, and say why if that fails. -/
def writeText (path text : String) : IO (Option Failure) := do
  match ← (IO.FS.writeFile path text).toBaseIO with
  | .ok _ => return none
  | .error e => return some (.unwritable path (.ofSystem e))

def usage : String :=
  "usage: ssair [-v] render [-o FILE] [--eliminate-phi] [--explicit-labels] INPUT\n" ++
  "       ssair [-v] check INPUT\n" ++
  "       ssair [-v] dump INPUT\n" ++
  "       ssair [-v] cfg [-f FUNCTION] [--dot] INPUT\n" ++
  "       ssair [-v] interference -f FUNCTION [-k COLORS] [--eliminate-phi] INPUT\n"

end SsaIr.CommandLine

open SsaIr.CommandLine in
def main (args : List String) : IO UInt32 := do
  match Command.ofArguments? {} args with
  | none =>
    IO.eprint usage
    return 2
  | some command =>
    let outcome := command.run (← readText command.input)
    IO.print outcome.printed
    let failure ← match outcome.written with
      | some (path, text) => writeText path text
      | none => pure outcome.failure
    match failure with
    | none => return 0
    | some failure =>
      IO.eprint failure.report
      return 1
