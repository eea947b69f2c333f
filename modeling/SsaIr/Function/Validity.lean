import SsaIr.Module

/-!
# Validity

What a function in single assignment form has to satisfy: a definition has blocks with distinct
labels, no name stands for two parameters or results, every name used is one of them, and every
label names a block. A declaration has no blocks.
-/

namespace SsaIr

/-- The first entry that an earlier entry, or one seen before, equals. -/
def firstRepeat? (seen : List String) : List String → Option String
  | [] => none
  | a :: as => if a ∈ seen then some a else firstRepeat? (a :: seen) as

namespace Function

/-- The names of the parameters and then those of the results. -/
def definedNames (f : Function) : List String :=
  f.parameterNames ++ f.instructions.filterMap Instruction.result

/-- The names that stand for more than one parameter or result. -/
def repeatedNames (f : Function) : NameSet :=
  NameSet.ofList (f.definedNames.filter fun name => 1 < f.definedNames.count name)

/-- Check the names and labels that an instruction mentions. -/
def validateInstruction (f : Function) (p : Position) (i : Instruction) : Except Error Unit := do
  match i.uses.toList.find? (· ∉ f.definedNames) with
  | some name => throw (.invalid f.name (.undefinedUse name p))
  | none =>
    let _ ← i.branchTargets.mapM f.resolve
    let _ ← i.incoming.mapM fun pair => f.resolve pair.2

/-- Check a definition. -/
def validateDefinition (f : Function) : Except Error Unit := do
  if f.blocks.isEmpty then throw (.invalid f.name .noBlocks)
  match firstRepeat? [] f.labels with
  | some label => throw (.invalid f.name (.duplicateLabel label))
  | none =>
    match f.repeatedNames.toList with
    | name :: others => throw (.invalid f.name (.redefined name others))
    | [] => f.located.forM fun (p, i) => f.validateInstruction p i

/-- Check a function. -/
def validate (f : Function) : Except Error Unit :=
  if f.isDeclaration then
    if f.blocks.isEmpty then .ok () else .error (.invalid f.name .declarationWithBody)
  else f.validateDefinition

end Function

/-- Check all functions; the first invalid one decides the error. -/
def Module.validate (m : Module) : Except Error Unit := m.functions.forM Function.validate

end SsaIr
