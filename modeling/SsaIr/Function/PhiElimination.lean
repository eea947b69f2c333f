import SsaIr.Module

/-!
# Phi elimination

Each phi is replaced by copies in its predecessors: for an incoming pair of a value and a label,
the block with that label gets a copy of the value behind everything else. All labels are looked
up before anything changes, so a function either loses all its phis or stays as it is.
-/

namespace SsaIr

namespace Function

/-- The phis with their blocks, in program order. -/
def phis (f : Function) : List (Block × Instruction) :=
  f.blocks.flatMap fun b => (b.instructions.filter Instruction.isPhi).map fun i => (b, i)

/-- The copies that take the place of a phi, each with the index of its block. -/
def copiesOf (f : Function) (b : Block) (phi : Instruction) :
    Except Error (List (Nat × Instruction)) :=
  match phi.result with
  | none => .error (.invalid f.name (.phiWithoutResult b.label))
  | some name =>
    phi.incoming.mapM fun (value, label) =>
      match f.lastBlockIndex? label with
      | some index => .ok (index, Instruction.copy name phi.type value)
      | none => .error (.unresolvedLabel f.name label)

/-- The copies that take the place of all phis, in order. -/
def copies (f : Function) : Except Error (List (Nat × Instruction)) :=
  (f.phis.mapM fun (b, phi) => f.copiesOf b phi).map List.flatten

/-- The function without phis and with the given copies at the ends of their blocks. -/
def replacePhis (f : Function) (copies : List (Nat × Instruction)) : Function :=
  { f with blocks := f.blocks.zipIdx.map fun (b, index) =>
    { b with instructions := b.instructions.filter (!·.isPhi) ++
        (copies.filter (·.1 = index)).map Prod.snd } }

/-- The function without phis, and how many it had. -/
def eliminatePhis (f : Function) : Except Error (Function × Nat) :=
  f.copies.map fun copies => (f.replacePhis copies, f.phis.length)

end Function

namespace Module

/-- Eliminate phis in definition after definition up to the first failure. -/
def eliminateInFunctions : List Function → List Function × Except Error Nat
  | [] => ([], .ok 0)
  | f :: fs =>
    if f.isDeclaration then
      let (gs, count) := eliminateInFunctions fs
      (f :: gs, count)
    else
      match f.eliminatePhis with
      | .error e => (f :: fs, .error e)
      | .ok (g, n) =>
        let (gs, count) := eliminateInFunctions fs
        (g :: gs, count.map (n + ·))

/-- The module after the elimination, and how many phis it removed. After a failure, the
functions in front of the failing one have lost their phis. -/
def eliminatePhis (m : Module) : Module × Except Error Nat :=
  let (functions, count) := eliminateInFunctions m.functions
  ({ m with functions }, count)

end Module

end SsaIr
