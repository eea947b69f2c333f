import SsaIr.CommandLine.Command
import SsaIr.Function.PhiElimination
import SsaIr.Function.Validity
import SsaIr.Graph.Blocks
import SsaIr.Interference
import SsaIr.Json.Module
import SsaIr.Json.Printer
import SsaIr.Module.Parser
import SsaIr.Module.Printer

/-!
# Running commands

What a command prints and writes, as a function of the text of its input file, and why it can
fail. What is printed before a failure stays printed.
-/

namespace SsaIr.CommandLine

/-- Why a file cannot be read or written: in words, and as the number the system gives it. -/
structure FileFault where
  reason : String
  code : Option Nat := none
  deriving DecidableEq, Inhabited

namespace FileFault

def notFound : FileFault := { reason := "No such file or directory", code := some 2 }

def permissionDenied : FileFault := { reason := "Permission denied", code := some 13 }

def notDirectory : FileFault := { reason := "Not a directory", code := some 20 }

def isDirectory : FileFault := { reason := "Is a directory", code := some 21 }

def nameTooLong : FileFault := { reason := "File name too long", code := some 36 }

/-- The file is no Unicode text. -/
def invalidText : FileFault := { reason := "stream did not contain valid UTF-8" }

def message (fault : FileFault) : String :=
  fault.reason ++
    match fault.code with
    | some n => " (os error " ++ toString n ++ ")"
    | none => ""

end FileFault

inductive Failure where
  | error (e : Error)
  | noFunction (name : String)
  | uncolorable (function : String) (colors : Nat)
  | unreadable (path : String) (fault : FileFault)
  | unwritable (path : String) (fault : FileFault)
  deriving DecidableEq, Inhabited

namespace Failure

def message : Failure → String
  | error e => e.message
  | noFunction name => "no function named @" ++ name
  | uncolorable function colors =>
    "@" ++ function ++ " cannot be coloured with " ++ toString colors ++ " colour(s)"
  | unreadable path _ => "failed to read " ++ path
  | unwritable path _ => "failed to write " ++ path

/-- What lies behind the failure, if it is more than the message says. -/
def cause? : Failure → Option String
  | unreadable _ fault | unwritable _ fault => some ("IO error: " ++ fault.message)
  | _ => none

/-- What the program says about the failure. -/
def report (f : Failure) : String :=
  "Error: " ++ f.message ++
    (match f.cause? with
      | some cause => "\n\nCaused by:\n    " ++ cause
      | none => "") ++ "\n"

end Failure

/-- What a command prints, what it has to write where, and how it fails. -/
structure Outcome where
  printed : String := ""
  written : Option (String × String) := none
  failure : Option Failure := none
  deriving DecidableEq, Inhabited

namespace Outcome

def fail (failure : Failure) : Outcome := { failure := some failure }

/-- First the printed text, then the other outcome. -/
def andThen (printed : String) (o : Outcome) : Outcome :=
  { o with printed := printed ++ o.printed }

def ofExcept {α : Type} (next : α → Outcome) : Except Error α → Outcome
  | .ok a => next a
  | .error e => fail (.error e)

end Outcome

/-- The function of a name. -/
def withFunction (m : Module) (name : String) (next : Function → Outcome) : Outcome :=
  match m.function? name with
  | some f => next f
  | none => .fail (.noFunction name)

/-- The module itself or the module without phis. -/
def withoutPhis (wanted : Bool) (m : Module) (next : Module → Outcome) : Outcome :=
  if wanted then
    let (reduced, count) := m.eliminatePhis
    .ofExcept (fun _ => next reduced) count
  else next m

/-- The edges of a block graph and its unreachable blocks, each on a line. -/
def blockGraphText (f : Function) (g : BlockGraph) : String :=
  "@" ++ f.name ++ ":\n" ++
    String.join (g.labelledEdges.map fun (source, target, kind) =>
      "  %" ++ source ++ " -> %" ++ target ++ " (" ++ kind.keyword ++ ")\n") ++
    String.join (g.unreachable.map fun label => "  %" ++ label ++ " unreachable\n")

/-- Print the block graphs of functions up to the first that has none. -/
def printBlockGraphs (dot : Bool) : List Function → Outcome
  | [] => {}
  | f :: fs =>
    .ofExcept (fun g =>
      (printBlockGraphs dot fs).andThen (if dot then g.dot ++ "\n" else blockGraphText f g))
      (BlockGraph.ofFunction f)

/-- Each name with its neighbours on a line. -/
def interferenceText (g : InterferenceGraph) : String :=
  String.join (g.names.toList.map fun name =>
    "%" ++ name ++ ": " ++ ", ".intercalate ((g.neighbors name).toList.map ("%" ++ ·)) ++ "\n")

/-- Each name with its colour on a line. -/
def coloringText (colors : List (String × Nat)) : String :=
  String.join (colors.map fun (name, color) => "%" ++ name ++ " = " ++ toString color ++ "\n")

/-- Print a graph and then, if a number of colours is given, a colouring of it. -/
def printInterference (function : String) (colors : Option Nat) (g : InterferenceGraph) :
    Outcome :=
  Outcome.andThen (interferenceText g) <|
    match colors with
    | none => {}
    | some k =>
      match g.color? k with
      | some coloring => { printed := coloringText coloring }
      | none => .fail (.uncolorable function k)

namespace Command

/-- What the command does with the module in its input file. -/
def runOnModule (c : Command) (m : Module) : Outcome :=
  match c with
  | render _ output eliminatePhis explicitLabels =>
    withoutPhis eliminatePhis m fun m =>
      let text := m.text (if explicitLabels then .line else .comment)
      match output with
      | some path => { written := some (path, text) }
      | none => { printed := text }
  | check input =>
    .ofExcept (fun _ => { printed := input ++ ": " ++ toString m.functions.length ++
      " function(s), " ++ toString m.globals.length ++ " global(s), ok\n" }) m.validate
  | dump _ => { printed := Json.pretty 0 m.toJson ++ "\n" }
  | cfg _ (some name) dot => withFunction m name fun f => printBlockGraphs dot [f]
  | cfg _ none dot => printBlockGraphs dot m.definitions
  | interference _ name colors eliminatePhis =>
    withoutPhis eliminatePhis m fun m =>
      withFunction m name fun f =>
        .ofExcept (printInterference name colors) (InterferenceGraph.ofFunction f)

/-- What the command does, given its input file. -/
def run (c : Command) (source : Except FileFault String) : Outcome :=
  match source with
  | .error fault => .fail (.unreadable c.input fault)
  | .ok text => .ofExcept c.runOnModule (Module.parse c.input text)

end Command

end SsaIr.CommandLine
