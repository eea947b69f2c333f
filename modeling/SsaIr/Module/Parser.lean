import SsaIr.Function.Parser
import SsaIr.Global.Parser
import SsaIr.Module

/-!
# Reading modules

A module is read line by line, either at module level or inside the body of a function. The first
line that cannot be read decides the error; its location counts lines from one.
-/

namespace SsaIr

open Text

namespace Module

/-- What a line at module level says. -/
inductive TopLine where
  /-- Nothing: the line is blank or a comment. -/
  | blank
  | moduleId (text : List Char)
  | targetInfo (text : List Char)
  | metadata (text : List Char)
  | global (code : List Char) (comment : Option String)
  | define (header : List Char) (comment : Option String)
  | declare (header : List Char) (comment : Option String)
  | unknown (code : List Char)

def TopLine.ofLine (line : List Char) : TopLine :=
  let (code, comment) := splitComment line
  let code := trim code
  if code.isEmpty then
    let comment := trim (comment.getD [])
    if (after? "; ModuleID = ".toList comment).isSome then .moduleId comment else .blank
  else if (after? "target ".toList code).isSome ∨
      (after? "source_filename".toList code).isSome then .targetInfo (trim line)
  else if code.head? = some '!' ∨ (after? "attributes ".toList code).isSome then
    .metadata (trim line)
  else if code.head? = some '@' then .global code (comment.map String.ofList)
  else
    match after? "define ".toList code, after? "declare ".toList code with
    | some header, _ => .define header (comment.map String.ofList)
    | none, some header => .declare header (comment.map String.ofList)
    | none, none => .unknown code

/-- A module read so far, and the function whose body is being read. -/
structure Reader where
  module : Module := {}
  current : Option Function := none
  deriving DecidableEq, Inhabited

namespace Reader

/-- Take in a line at module level. -/
def addTopLine (m : Module) : TopLine → Except ParseError Reader
  | .blank => .ok { module := m }
  | .moduleId text => .ok { module := { m with moduleId := some (String.ofList text) } }
  | .targetInfo text =>
    .ok { module := { m with targetInfo := m.targetInfo ++ [String.ofList text] } }
  | .metadata text => .ok { module := { m with metadata := m.metadata ++ [String.ofList text] } }
  | .global code comment =>
    (Global.parse code).map fun g => { module := m.addGlobal { g with comment } }
  | .define header comment =>
    (Function.parseHeader false header).map fun f =>
      { module := m, current := some { f with comment } }
  | .declare header comment =>
    (Function.parseHeader true header).map fun f => { module := m.addFunction { f with comment } }
  | .unknown code => .error (.unexpected ("`" ++ String.ofList code ++ "` at module scope"))

/-- Take in one more line. -/
def step (r : Reader) (line : List Char) : Except ParseError Reader :=
  match r.current with
  | none => addTopLine r.module (TopLine.ofLine line)
  | some f =>
    match Function.BodyLine.ofLine line with
    | .close => .ok { module := r.module.addFunction f }
    | line => (f.addBodyLine line).map fun f => { r with current := some f }

/-- Take in all lines of a file, the first of them having the number after `n`. -/
def run (file : String) (r : Reader) (n : Nat) : List String → Except Error (Reader × Nat)
  | [] => .ok (r, n)
  | line :: lines =>
    match r.step line.toList with
    | .error cause => .error (.parse ⟨file, n + 1⟩ (String.ofList (trim line.toList)) cause)
    | .ok r => run file r (n + 1) lines

end Reader

/-- Read the lines of a file. -/
def parseLines (file : String) (lines : List String) : Except Error Module :=
  match Reader.run file {} 0 lines with
  | .error e => .error e
  | .ok ({ module, current := none }, _) => .ok module
  | .ok ({ current := some f, .. }, n) =>
    .error (.parse ⟨file, n⟩ "" (.unterminatedFunction f.name))

/-- The name that stands for an input without one. -/
def anonymousFile : String := "<input>"

/-- Read the text of a file. -/
def parse (file text : String) : Except Error Module :=
  parseLines file ((Text.lines text.toList).map String.ofList)

end Module

end SsaIr
