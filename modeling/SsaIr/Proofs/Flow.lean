import SsaIr.Function.Flow
import SsaIr.Proofs.Validity

/-!
# Flow between blocks

Which blocks control can go to and come from in a function.
-/

namespace SsaIr

namespace Block

variable {b : Block} {i : Instruction}

theorem mem_of_terminator? (h : b.terminator? = some i) : i ∈ b.instructions := by
  obtain ⟨t, -, hi⟩ := Option.bind_eq_some_iff.1 h
  exact List.mem_of_getElem? hi

end Block

namespace Function

variable {f : Function} {b : Block} {p q : Nat} {ps : List Nat}

theorem mem_instructions_of_block {i : Instruction} (hb : b ∈ f.blocks)
    (hi : i ∈ b.instructions) : i ∈ f.instructions := List.mem_flatMap.2 ⟨b, hb, hi⟩

/-- Control can go from one block to another. -/
def Enters (f : Function) (p q : Nat) : Prop :=
  ∃ targets, f.successorBlocks p = .ok targets ∧ q ∈ targets

theorem lt_of_successorBlocks (h : f.successorBlocks p = .ok ps) : p < f.blocks.length := by
  apply Decidable.byContradiction
  intro hp
  rw [successorBlocks, List.getElem?_eq_none (Nat.le_of_not_lt hp)] at h
  cases h

theorem mem_predecessorBlocks_iff (h : f.predecessorBlocks q = .ok ps) :
    p ∈ ps ↔ f.Enters p q := by
  obtain ⟨targets, htargets, hps⟩ := bind_eq_ok_iff.1 h
  cases hps
  have hget : ∀ {p ts}, targets[p]? = some ts ↔ f.successorBlocks p = .ok ts := by
    intro p ts
    rw [getElem?_result_iff htargets]
    constructor
    · rintro ⟨r, hr, hts⟩
      obtain ⟨hlt, rfl⟩ := List.getElem?_eq_some_iff.1 hr
      rw [List.getElem_range] at hts
      exact hts
    · intro hts
      exact ⟨p, List.getElem?_range (lt_of_successorBlocks hts), hts⟩
  simp only [List.mem_map, List.mem_filter, Prod.exists, List.mem_zipIdx_iff_getElem?, hget,
    decide_eq_true_eq, exists_eq_right]
  exact Iff.rfl

/-- In a well formed function, each block has successors and predecessors. -/
theorem WellFormed.exists_successorBlocks (h : f.WellFormed) (hp : p < f.blocks.length) :
    ∃ targets, f.successorBlocks p = .ok targets := by
  cases hterm : f.blocks[p].terminator? with
  | none =>
      simp only [successorBlocks, List.getElem?_eq_getElem hp, hterm]
      exact ⟨_, rfl⟩
  | some t =>
      have ht : t ∈ f.instructions :=
        mem_instructions_of_block (List.getElem_mem hp) (Block.mem_of_terminator? hterm)
      simp only [successorBlocks, List.getElem?_eq_getElem hp, hterm]
      split
      · apply exists_mapM_eq_ok_iff.2
        intro label hlabel
        exact exists_resolve_iff.2 (h.targets_exist t ht label hlabel)
      · exact ⟨_, rfl⟩

theorem WellFormed.exists_predecessorBlocks (h : f.WellFormed) (q : Nat) :
    ∃ ps, f.predecessorBlocks q = .ok ps := by
  obtain ⟨targets, htargets⟩ := exists_mapM_eq_ok_iff.2 fun p hp =>
    h.exists_successorBlocks (List.mem_range.1 hp)
  exact ⟨_, bind_eq_ok_iff.2 ⟨targets, htargets, rfl⟩⟩

end Function

end SsaIr
