import SsaIr.Graph.Blocks
import SsaIr.Proofs.ExecutionOrder

/-!
# What decides control between blocks

Where control goes from block to block depends on the labels of the blocks and on the last
terminator of each, and on the name of the function, which errors carry. Functions with the same
outline in this sense have the same flow between blocks, and the same block graph or none for the
same reason.
-/

namespace SsaIr

namespace Block

variable {b c : Block}

theorem terminator?_eq_getLast? (b : Block) :
    b.terminator? = (b.instructions.filter (·.isTerminator)).getLast? := by
  rcases b.terminator_cases with hnone | ⟨front, t, back, h, ht, hback⟩
  · rw [terminator?_of_none hnone, List.filter_eq_nil_iff.2 (by simpa using hnone)]
    rfl
  · have hnone : back.filter (·.isTerminator) = [] :=
      List.filter_eq_nil_iff.2 (by simpa using hback)
    rw [terminator?_of_split h ht hback, h, List.filter_append, List.filter_cons_of_pos ht, hnone,
      List.getLast?_concat]

/-- What is no terminator has no part in which terminator is the last one. -/
theorem terminator?_congr (h : c.instructions.filter (·.isTerminator) =
    b.instructions.filter (·.isTerminator)) : c.terminator? = b.terminator? := by
  rw [terminator?_eq_getLast?, terminator?_eq_getLast?, h]

end Block

namespace Function

variable {f g : Function} {block : Nat} {label : String}

/-- The functions have the same name and blocks with the same labels and last terminators. -/
structure SameOutline (f g : Function) : Prop where
  name : g.name = f.name
  labels : g.labels = f.labels
  terminators : g.blocks.map Block.terminator? = f.blocks.map Block.terminator?

theorem blockIndex?_eq_findIdx? (f : Function) (label : String) :
    f.blockIndex? label = f.labels.findIdx? (· = label) := by
  rw [blockIndex?, labels, List.findIdx?_map]
  rfl

/-- Where control goes from a block is read off the outline. -/
theorem successorBlocks_eq (f : Function) (block : Nat) : f.successorBlocks block =
    match (f.blocks.map Block.terminator?)[block]? with
    | none => .error (.invalid f.name (.noBlock block))
    | some (some t) => if t.opcode.isBranch then t.branchTargets.mapM f.resolve else .ok []
    | some none => .ok (if block + 1 < f.labels.length then [block + 1] else []) := by
  rw [successorBlocks, List.getElem?_map, labels, List.length_map]
  cases f.blocks[block]? with
  | none => rfl
  | some b =>
      simp only [Option.map_some]
      cases b.terminator? <;> rfl

namespace SameOutline

variable (h : f.SameOutline g)
include h

theorem resolve : g.resolve = f.resolve := by
  funext label
  rw [Function.resolve, Function.resolve, blockIndex?_eq_findIdx?, blockIndex?_eq_findIdx?, h.labels,
    h.name]

theorem length_blocks : g.blocks.length = f.blocks.length := by
  simpa [Function.labels] using congrArg List.length h.labels

theorem successorBlocks (block : Nat) : g.successorBlocks block = f.successorBlocks block := by
  rw [successorBlocks_eq, successorBlocks_eq, h.terminators, h.name, h.labels, h.resolve]

theorem predecessorBlocks (block : Nat) : g.predecessorBlocks block = f.predecessorBlocks block := by
  have hall : g.successorBlocks = f.successorBlocks := funext h.successorBlocks
  rw [Function.predecessorBlocks, Function.predecessorBlocks, h.length_blocks, hall]

end SameOutline

end Function

namespace BlockGraph

variable {f g : Function}

/-- How control leaves a block with the given last terminator. -/
def kindsAfter (terminator : Option Instruction) : List EdgeKind :=
  match terminator.map (·.branchTargets.length) with
  | some 2 => [.whenTrue, .whenFalse]
  | some 1 => [.jump]
  | _ => [.fallthrough]

/-- The edges that leave blocks are read off the outline. -/
theorem mapM_edgesFrom (f : Function) :
    (f.blocks.zipIdx.mapM fun (b, source) => edgesFrom f b source) =
      (f.blocks.map Block.terminator?).zipIdx.mapM fun (terminator, source) =>
        (f.successorBlocks source).map fun targets =>
          (targets.zip (kindsAfter terminator)).map fun (target, kind) =>
            { source, target, kind } := by
  rw [List.zipIdx_map, List.mapM_map]
  rfl

theorem ofFunction_of_sameOutline (h : f.SameOutline g) : ofFunction g = ofFunction f := by
  simp only [ofFunction, mapM_edgesFrom, h.terminators, h.successorBlocks, h.labels]

end BlockGraph

end SsaIr
