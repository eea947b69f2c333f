import SsaIr.Proofs.Graph.Outline
import SsaIr.Proofs.PhiElimination.Effect

/-!
# Phi elimination and control between blocks

Phis are no terminators, and neither are the copies that take their place. So eliminating phis keeps
the last terminator of every block, wherever in the block it stands and whatever it branches to, and
with it all flow between blocks. Labels may repeat, and blocks may lose all their instructions.
-/

namespace SsaIr

theorem Instruction.isPhi_of_isTerminator {i : Instruction} (h : i.isTerminator = true) :
    i.isPhi = false := by
  rw [isPhi, decide_eq_false_iff_not]
  intro hphi
  rw [isTerminator, hphi] at h
  cases h

namespace Function

variable {f g : Function} {b : Block} {c : Nat × Instruction} {n : Nat}
variable {copies : List (Nat × Instruction)}

/-- What is put into blocks are copies, and the blocks exist. -/
theorem exists_block_of_mem_copies (h : f.copies = .ok copies) (hc : c ∈ copies) :
    (∃ b, f.blocks[c.1]? = some b) ∧ ∃ name type v, c.2 = Instruction.copy name type v := by
  obtain ⟨groups, hgroups, rfl⟩ := map_eq_ok_iff.1 h
  obtain ⟨group, hgroup, hc⟩ := List.mem_flatten.1 hc
  obtain ⟨⟨b, phi⟩, -, hof⟩ := exists_of_mem_result hgroups hgroup
  obtain ⟨name, -, hpairs⟩ := copiesOf_eq_ok_iff.1 hof
  obtain ⟨pair, -, hindex, hcopy⟩ := exists_left_of_forall₂ hpairs hc
  refine ⟨?_, name, phi.type, pair.1, hcopy⟩
  have hlabel := getElem?_of_lastBlockIndex? hindex
  rw [labels, List.getElem?_map, Option.map_eq_some_iff] at hlabel
  exact hlabel.imp fun b hb => hb.1

/-- A block with some instructions for its phis has the last terminator that it had, if they are no
terminators. -/
theorem terminator?_replaced {behind : List Instruction}
    (h : ∀ i ∈ behind, i.isTerminator = false) :
    ({ b with instructions := b.instructions.filter (!·.isPhi) ++ behind } : Block).terminator? =
      b.terminator? := by
  have hbehind : behind.filter (·.isTerminator) = [] := List.filter_eq_nil_iff.2 (by simpa using h)
  apply Block.terminator?_congr
  rw [List.filter_append, hbehind, List.append_nil, List.filter_filter]
  refine List.filter_congr fun i _ => ?_
  cases hterm : i.isTerminator with
  | true => rw [Instruction.isPhi_of_isTerminator hterm]; rfl
  | false => rfl

theorem sameOutline_replacePhis (h : ∀ c ∈ copies, c.2.isTerminator = false) :
    f.SameOutline (f.replacePhis copies) where
  name := rfl
  labels := by
    rw [labels, replacePhis, List.map_map, labels]
    conv_rhs => rw [← List.zipIdx_map_fst 0 f.blocks, List.map_map]
    rfl
  terminators := by
    rw [replacePhis, List.map_map]
    conv_rhs => rw [← List.zipIdx_map_fst 0 f.blocks, List.map_map]
    refine List.map_congr_left fun pair _ => terminator?_replaced fun i hi => ?_
    obtain ⟨c, hc, rfl⟩ := List.mem_map.1 hi
    exact h c (List.mem_filter.1 hc).1

theorem sameOutline_withCopies (f : Function) : f.SameOutline f.withCopies where
  name := rfl
  labels := f.labels_withCopies
  terminators := by
    rw [withCopies, List.map_map]
    refine List.map_congr_left fun b _ => terminator?_replaced fun i hi => ?_
    obtain ⟨-, -, phi, name, v, -, rfl⟩ := mem_copiesTo_iff.1 hi
    rfl

theorem sameOutline_of_eliminatePhis (h : f.eliminatePhis = .ok (g, n)) : f.SameOutline g := by
  obtain ⟨copies, hcopies, heq⟩ := map_eq_ok_iff.1 h
  obtain ⟨rfl, -⟩ := Prod.mk.inj heq
  apply sameOutline_replacePhis
  intro c hc
  obtain ⟨-, name, type, v, hcopy⟩ := exists_block_of_mem_copies hcopies hc
  rw [hcopy]
  rfl

/-- Eliminating phis leaves control between blocks as it is. For every index, there or not, the
blocks gone on to and the blocks come from are the same, or cannot be told for the same reason. The
block graph is the same, with its edges, what they say of successors and the blocks that control
does not come to, or cannot be built for the same reason. -/
theorem blockFlow_of_eliminatePhis (h : f.eliminatePhis = .ok (g, n)) :
    (∀ block, g.successorBlocks block = f.successorBlocks block) ∧
    (∀ block, g.predecessorBlocks block = f.predecessorBlocks block) ∧
    BlockGraph.ofFunction g = BlockGraph.ofFunction f := by
  have houtline := sameOutline_of_eliminatePhis h
  exact ⟨houtline.successorBlocks, houtline.predecessorBlocks,
    BlockGraph.ofFunction_of_sameOutline houtline⟩

/-- A repeated label, a terminator in front of a later one, a block of nothing but a phi, and a block
that nothing goes on to. -/
def tangle : Function where
  name := "tangle"
  returnType := "void"
  parameters := [{ name := some "c", type := "i1" }]
  blocks :=
    [{ label := "entry"
       instructions := [.branch "gone", .condBranch (.argument "c" "i1") "twin" "last"] },
     { label := "twin"
       instructions := [{ result := some "x", opcode := .phi, type := some "i32"
                          incoming := [(.int 0 "i32", "entry"), (.int 1 "i32", "twin")] }] },
     { label := "twin", instructions := [.branch "last"] },
     { label := "dead", instructions := [{ opcode := .unreachable }] },
     { label := "last", instructions := [.branch "twin"] }]

/-- The block graph of `tangle`. -/
def tangleBlocks : BlockGraph where
  labels := ["entry", "twin", "twin", "dead", "last"]
  edges := [⟨0, 1, .whenTrue⟩, ⟨0, 4, .whenFalse⟩, ⟨1, 2, .fallthrough⟩, ⟨2, 4, .jump⟩,
    ⟨4, 1, .jump⟩]

theorem blockFlow_of_eliminatePhis_tangle : ∃ g, tangle.eliminatePhis = .ok (g, 1) ∧
    g.blocks.map Block.size = [3, 0, 2, 1, 1] ∧ g.successorBlocks 1 = .ok [2] ∧
      g.predecessorBlocks 1 = .ok [0, 4] ∧ BlockGraph.ofFunction g = .ok tangleBlocks := by
  obtain ⟨g, h, hsizes⟩ : ∃ g, tangle.eliminatePhis = .ok (g, 1) ∧
      g.blocks.map Block.size = [3, 0, 2, 1, 1] := ⟨_, rfl, rfl⟩
  obtain ⟨hsuccessors, hpredecessors, hgraph⟩ := blockFlow_of_eliminatePhis h
  refine ⟨g, h, hsizes, ?_, ?_, ?_⟩
  · rw [hsuccessors]
    rfl
  · rw [hpredecessors]
    rfl
  · rw [hgraph]
    rfl

end Function

end SsaIr
