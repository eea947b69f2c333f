import SsaIr.Function

/-!
# Control flow inside a function

Where control goes from an instruction, as written (`successors`) and as run (`flowSuccessors`),
and where it goes from a block (`successorBlocks`). As run, a block executes what stands behind its
terminator before it, and entering a block enters at what runs first there.
-/

namespace SsaIr.Function

/-- Where control goes from the instruction at a position, as the blocks are written: a branch to
the starts of its targets, nowhere from another terminator, else on to the next instruction. -/
def successors (f : Function) (p : Position) : Except Error (List Position) :=
  match f.instruction? p with
  | none => .error (.invalid f.name (.noInstruction p))
  | some i =>
    if i.opcode.isBranch then
      i.branchTargets.mapM fun label => (f.resolve label).map fun block => ⟨block, 0⟩
    else if i.isTerminator then .ok []
    else if p.index + 1 < ((f.blocks[p.block]?.map Block.size).getD 0) then
      .ok [⟨p.block, p.index + 1⟩]
    else if p.block + 1 < f.blocks.length then .ok [⟨p.block + 1, 0⟩]
    else .ok []

/-- The indices of the instructions of a block in the order they run. -/
def executionOrder (f : Function) (block : Nat) : List Nat :=
  (f.blocks[block]?.map Block.executionOrder).getD []

/-- What runs first in a block. -/
def blockEntry (f : Function) (block : Nat) : Position :=
  ⟨block, (f.executionOrder block).head?.getD 0⟩

/-- What runs first in the function. -/
def entryPoint? (f : Function) : Option Position :=
  if f.blocks.isEmpty then none else some (f.blockEntry 0)

/-- Where control goes from the instruction at a position when the function runs. -/
def flowSuccessors (f : Function) (p : Position) : Except Error (List Position) :=
  let order := f.executionOrder p.block
  match order.dropWhile (· ≠ p.index) with
  | [] => .error (.invalid f.name (.noInstruction p))
  | _ :: next :: _ => .ok [⟨p.block, next⟩]
  | [_] => (f.successors p).map (·.map fun q => f.blockEntry q.block)

/-- The blocks that control goes to from a block: the targets of its terminator, or without one
the next block. -/
def successorBlocks (f : Function) (block : Nat) : Except Error (List Nat) :=
  match f.blocks[block]? with
  | none => .error (.invalid f.name (.noBlock block))
  | some b =>
    match b.terminator? with
    | some t => if t.opcode.isBranch then t.branchTargets.mapM f.resolve else .ok []
    | none => .ok (if block + 1 < f.blocks.length then [block + 1] else [])

/-- The blocks that control comes from into a block, in order. -/
def predecessorBlocks (f : Function) (block : Nat) : Except Error (List Nat) := do
  let targets ← (List.range f.blocks.length).mapM f.successorBlocks
  return (targets.zipIdx.filter (block ∈ ·.1)).map Prod.snd

end SsaIr.Function
