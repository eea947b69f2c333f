import SsaIr.Function.PhiElimination

/-!
# Phi elimination in place

The pass as it changes what is in memory. A function gets its copies one by one, each behind
everything else in its block, and then loses its phis; a module has its definitions changed one
after the other. What has been done by the time something fails is not undone.
-/

namespace SsaIr

namespace Function

/-- Put an instruction behind everything else in a block. -/
def append (f : Function) (block : Nat) (i : Instruction) : Function :=
  { f with blocks := f.blocks.modify block (·.add i) }

/-- Drop the phis from all blocks. -/
def dropPhis (f : Function) : Function :=
  { f with blocks := f.blocks.map fun b =>
      { b with instructions := b.instructions.filter (!·.isPhi) } }

/-- Replace the phis of the function in memory, and count them. -/
def replaceInMemory : ExceptT Error (StateM Function) Nat := do
  let f ← get
  let copies ← MonadExcept.ofExcept f.copies
  copies.forM fun (block, copy) => modify fun f => f.append block copy
  modify dropPhis
  return f.phis.length

/-- What is in memory after the pass, and how many phis it removed. -/
def eliminateInPlace (f : Function) : Function × Except Error Nat :=
  (replaceInMemory.run.run f).swap

end Function

namespace Module

/-- Change the definitions among some functions one after the other, up to the first failure. -/
def eliminateInEach : List Function → List Function × Except Error Nat
  | [] => ([], .ok 0)
  | f :: fs =>
    if f.isDeclaration then
      let (gs, total) := eliminateInEach fs
      (f :: gs, total)
    else
      match f.eliminateInPlace with
      | (g, .error e) => (g :: fs, .error e)
      | (g, .ok n) =>
        let (gs, total) := eliminateInEach fs
        (g :: gs, total.map (n + ·))

/-- What is in memory after the pass, and how many phis it removed. -/
def eliminateInPlace (m : Module) : Module × Except Error Nat :=
  let (functions, total) := eliminateInEach m.functions
  ({ m with functions }, total)

end Module

end SsaIr
