import SsaIr.Function
import SsaIr.Global

/-!
# Modules

A module holds functions, global variables, and lines about target and metadata that are kept as
written. Declarations stand in front of definitions.
-/

namespace SsaIr

structure Module where
  /-- The line `; ModuleID = ...`, as written. -/
  moduleId : Option String := none
  functions : List Function := []
  globals : List Global := []
  /-- The lines `target ...` and `source_filename ...`, as written. -/
  targetInfo : List String := []
  /-- The lines `!...` and `attributes ...`, as written. -/
  metadata : List String := []
  deriving DecidableEq, Inhabited

namespace Module

/-- Add a function: a declaration in front of the first definition, a definition at the end. -/
def addFunction (m : Module) (f : Function) : Module :=
  if f.isDeclaration then
    { m with functions := m.functions.takeWhile (·.isDeclaration) ++
        f :: m.functions.dropWhile (·.isDeclaration) }
  else { m with functions := m.functions ++ [f] }

def addGlobal (m : Module) (g : Global) : Module := { m with globals := m.globals ++ [g] }

/-- The first function of that name. -/
def function? (m : Module) (name : String) : Option Function :=
  m.functions.find? (·.name = name)

/-- The first global variable of that name. -/
def global? (m : Module) (name : String) : Option Global := m.globals.find? (·.name = name)

def declarations (m : Module) : List Function := m.functions.filter (·.isDeclaration)

def definitions (m : Module) : List Function := m.functions.filter (!·.isDeclaration)

/-- A new definition comes behind the others. -/
theorem definitions_addFunction (m : Module) (f : Function) :
    (m.addFunction f).definitions =
      if f.isDeclaration then m.definitions else m.definitions ++ [f] := by
  unfold addFunction definitions
  split
  · next h =>
      simp only [List.filter_append, List.filter_cons, h, Bool.not_true, Bool.false_eq_true,
        if_false]
      rw [← List.filter_append, List.takeWhile_append_dropWhile]
  · next h => simp [h]

end Module

end SsaIr
