import SsaIr.Graph.Instructions
import SsaIr.Proofs.Except

/-!
# Edges of the instruction graph

The graph of a function has its instructions as nodes, and an edge wherever control can go from one
instruction to another.
-/

namespace SsaIr

namespace Function

variable {f : Function} {p q : Position} {i : Instruction}

theorem mem_located : (p, i) ∈ f.located ↔ f.instruction? p = some i := by
  simp only [located, instruction?, List.mem_flatMap, List.mem_map, Prod.mk.injEq,
    Option.bind_eq_some_iff, Prod.exists, List.mem_zipIdx_iff_getElem?]
  constructor
  · rintro ⟨b, block, hb, j, index, hj, rfl, rfl⟩
    exact ⟨b, hb, hj⟩
  · rintro ⟨b, hb, hi⟩
    exact ⟨b, p.block, hb, i, p.index, hi, rfl, rfl⟩

theorem mem_positions : p ∈ f.positions ↔ (f.instruction? p).isSome := by
  simp only [positions, List.mem_map, Prod.exists, mem_located, exists_and_right, exists_eq_right,
    Option.isSome_iff_exists]

theorem mem_instructions : i ∈ f.instructions ↔ ∃ p, f.instruction? p = some i := by
  simp only [instructions, instruction?, List.mem_flatMap, Option.bind_eq_some_iff]
  constructor
  · rintro ⟨b, hb, hi⟩
    obtain ⟨block, hb⟩ := List.mem_iff_getElem?.1 hb
    obtain ⟨index, hi⟩ := List.mem_iff_getElem?.1 hi
    exact ⟨⟨block, index⟩, b, hb, hi⟩
  · rintro ⟨p, b, hb, hi⟩
    exact ⟨b, List.mem_of_getElem? hb, List.mem_of_getElem? hi⟩

/-- Control can go from one instruction to another when the function runs. -/
def Steps (f : Function) (p q : Position) : Prop :=
  (f.instruction? p).isSome ∧ (f.instruction? q).isSome ∧
    ∃ targets, f.flowSuccessors p = .ok targets ∧ q ∈ targets

end Function

namespace InstructionGraph

variable {f : Function} {g : InstructionGraph} {p q : Position}

theorem nodes_of_ofFunction (h : ofFunction f = .ok g) : g.nodes = f.positions := by
  obtain ⟨edges, -, rfl⟩ := map_eq_ok_iff.1 h
  rfl

theorem start_of_ofFunction (h : ofFunction f = .ok g) : g.start = f.entryPoint? := by
  obtain ⟨edges, -, rfl⟩ := map_eq_ok_iff.1 h
  rfl

theorem mem_edges_of_edgesFrom {edges : List (Position × Position)}
    (h : edgesFrom f p = .ok edges) {e : Position × Position} :
    e ∈ edges ↔ e.1 = p ∧ (f.instruction? e.2).isSome ∧
      ∃ targets, f.flowSuccessors p = .ok targets ∧ e.2 ∈ targets := by
  obtain ⟨targets, ht, rfl⟩ := map_eq_ok_iff.1 h
  simp only [List.mem_map, List.mem_filter, ht, Except.ok.injEq, exists_eq_left']
  constructor
  · rintro ⟨q, ⟨hq, hi⟩, rfl⟩
    exact ⟨rfl, hi, hq⟩
  · rintro ⟨hp, hi, hq⟩
    exact ⟨e.2, ⟨hq, hi⟩, by rw [← hp]⟩

/-- The edges are the steps of control. -/
theorem mem_targets_iff (h : ofFunction f = .ok g) : q ∈ g.targets p ↔ f.Steps p q := by
  obtain ⟨edges, hedges, rfl⟩ := map_eq_ok_iff.1 h
  simp only [targets, List.mem_map, List.mem_filter, List.mem_flatten, decide_eq_true_eq]
  constructor
  · rintro ⟨e, ⟨⟨es, hes, he⟩, rfl⟩, rfl⟩
    obtain ⟨p, hp, hpe⟩ := exists_of_mem_result hedges hes
    obtain ⟨he, hi, ht⟩ := (mem_edges_of_edgesFrom hpe).1 he
    exact ⟨he ▸ Function.mem_positions.1 hp, hi, he ▸ ht⟩
  · rintro ⟨hp, hi, ht⟩
    obtain ⟨es, hes, hpe⟩ := exists_result_of_mem hedges (Function.mem_positions.2 hp)
    exact ⟨(p, q), ⟨⟨es, hes, (mem_edges_of_edgesFrom hpe).2 ⟨rfl, hi, ht⟩⟩, rfl⟩, rfl⟩

end InstructionGraph

end SsaIr
