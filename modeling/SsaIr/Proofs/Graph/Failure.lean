import SsaIr.Interference.Index
import SsaIr.Proofs.Graph.Blocks
import SsaIr.Proofs.PhiElimination.EntryLive

/-!
# Functions without graphs

The graphs of a function can be built unless the last terminator of some block branches to a label
that no block has. The block graph meets the first such label block by block. The instruction graph,
and with it liveness and interference, meets the same one, since within a block only the
instruction that runs last can fail to have successors.
-/

namespace SsaIr

section FindSome

variable {α β γ : Type}

theorem findSome?_congr {g h : α → Option β} {as : List α} (heq : ∀ a ∈ as, g a = h a) :
    as.findSome? g = as.findSome? h := by
  induction as with
  | nil => rfl
  | cons a as ih =>
      obtain ⟨ha, has⟩ := List.forall_mem_cons.1 heq
      rw [List.findSome?_cons, List.findSome?_cons, ha, ih has]

theorem findSome?_flatMap (g : α → List β) (h : β → Option γ) (as : List α) :
    (as.flatMap g).findSome? h = as.findSome? fun a => (g a).findSome? h := by
  induction as with
  | nil => rfl
  | cons a as ih =>
      rw [List.flatMap_cons, List.findSome?_append, ih, List.findSome?_cons]
      cases (g a).findSome? h <;> rfl

/-- Where at most one member gives something, it does not matter what stands around it. -/
theorem findSome?_eq_of_unique {g : α → Option β} {a : α} {as : List α} (ha : a ∈ as)
    (hother : ∀ b ∈ as, b ≠ a → g b = none) : as.findSome? g = g a := by
  cases hg : g a with
  | none =>
      rw [List.findSome?_eq_none_iff]
      intro b hb
      by_cases hba : b = a
      · rw [hba, hg]
      · exact hother b hb hba
  | some c =>
      have hsome : (as.findSome? g).isSome :=
        List.findSome?_isSome_iff.2 ⟨a, ha, by rw [hg]; rfl⟩
      obtain ⟨d, hd⟩ := Option.isSome_iff_exists.1 hsome
      obtain ⟨b, hb, hbd⟩ := List.exists_of_findSome?_eq_some hd
      have hba : b = a := by
        by_contra hne
        rw [hother b hb hne] at hbd
        cases hbd
      rw [hd, ← hbd, hba, hg]

end FindSome

/-- The labels that the last terminator of a block branches to. -/
def Block.targets (b : Block) : List String := (b.terminator?.map (·.branchTargets)).getD []

namespace Function

variable {f g : Function} {b : Block} {block n : Nat} {label : String} {e : Error}

/-- The first label that a block branches to and no block has, of the first block with one. -/
def danglingTarget? (f : Function) : Option String :=
  f.blocks.findSome? fun b => b.targets.find? (· ∉ f.labels)

theorem danglingTarget?_eq_none_iff :
    f.danglingTarget? = none ↔ ∀ b ∈ f.blocks, ∀ label ∈ b.targets, label ∈ f.labels := by
  simp [danglingTarget?]

/-- The first label that no block has cannot be resolved. -/
theorem failure?_mapM_resolve (f : Function) (labels : List String) :
    failure? (labels.mapM f.resolve) =
      (labels.find? (· ∉ f.labels)).map (.unresolvedLabel f.name) := by
  rw [failure?_mapM, List.find?_eq_findSome?_guard, List.map_findSome?]
  apply findSome?_congr
  intro label _
  rw [Function.comp_apply, resolve]
  by_cases h : label ∈ f.labels
  · obtain ⟨index, hindex⟩ := exists_blockIndex?_iff.2 h
    simp [hindex, failure?, h]
  · simp [blockIndex?_eq_none_iff.2 h, failure?, h]

theorem branchTargets_of_not_isBranch {i : Instruction} (h : i.opcode.isBranch = false) :
    i.branchTargets = [] := by
  unfold Instruction.branchTargets
  cases hop : i.opcode <;> simp_all [Opcode.isBranch]

/-- A block has no successors if it branches to a label that no block has. -/
theorem failure?_successorBlocks (hb : f.blocks[block]? = some b) :
    failure? (f.successorBlocks block) =
      (b.targets.find? (· ∉ f.labels)).map (.unresolvedLabel f.name) := by
  rw [successorBlocks, Block.targets]
  cases hterm : b.terminator? with
  | none =>
      simp only [hb, hterm]
      rfl
  | some t =>
      simp only [hb, hterm, Option.map_some, Option.getD_some]
      cases hbranch : t.opcode.isBranch with
      | true => rw [if_pos rfl, failure?_mapM_resolve]
      | false =>
          rw [if_neg Bool.false_ne_true, branchTargets_of_not_isBranch hbranch]
          rfl

/-- What fails block after block fails with the first label that no block has. -/
theorem findSome?_zipIdx_blocks {h : Block × Nat → Option Error}
    (hh : ∀ b block, f.blocks[block]? = some b → h (b, block) =
      (b.targets.find? (· ∉ f.labels)).map (.unresolvedLabel f.name)) :
    f.blocks.zipIdx.findSome? h = f.danglingTarget?.map (.unresolvedLabel f.name) := by
  have hfst : f.blocks = f.blocks.zipIdx.map Prod.fst := (List.zipIdx_map_fst 0 f.blocks).symm
  rw [danglingTarget?, List.map_findSome?]
  conv_rhs => rw [hfst, List.findSome?_map]
  apply findSome?_congr
  rintro ⟨b, block⟩ hmem
  exact hh b block (List.mem_zipIdx_iff_getElem?.1 hmem)

/-- What does not run last in its block has a successor. -/
theorem failure?_flowSuccessors_of_mem {front : List Nat} {index last : Nat}
    (h : f.executionOrder block = front ++ [last]) (hindex : index ∈ front) :
    failure? (f.flowSuccessors ⟨block, index⟩) = none := by
  obtain ⟨before, after, rfl⟩ := List.append_of_mem hindex
  rw [List.append_assoc, List.cons_append] at h
  cases after with
  | nil => rw [flowSuccessors_of_next h]; rfl
  | cons next after => rw [flowSuccessors_of_next h]; rfl

/-- Within a block, only what runs last can fail to have successors, and then as the block does. -/
theorem findSome?_flowSuccessors (hb : f.blocks[block]? = some b) :
    (b.instructions.zipIdx.findSome? fun (_, index) => failure? (f.flowSuccessors ⟨block, index⟩)) =
      failure? (f.successorBlocks block) := by
  rcases List.eq_nil_or_concat (f.executionOrder block) with hnil | ⟨front, last, horder⟩
  · rw [executionOrder_eq hb, Block.executionOrder_eq_nil_iff] at hnil
    rw [failure?_successorBlocks hb, Block.targets, Block.terminator?_of_none (by simp [hnil]), hnil]
    rfl
  · rw [List.concat_eq_append] at horder
    have hmem : last ∈ b.executionOrder := by rw [← executionOrder_eq hb, horder]; simp
    obtain ⟨t, hlast⟩ : ∃ t, b.instructions[last]? = some t :=
      ⟨_, List.getElem?_eq_getElem (Block.mem_executionOrder.1 hmem)⟩
    have hpair : (t, last) ∈ b.instructions.zipIdx :=
      List.mem_zipIdx_iff_getElem?.2 hlast
    -- No instruction but the last one can fail, so this one decides.
    rw [findSome?_eq_of_unique hpair]
    · exact (congrArg failure? (flowSuccessors_of_last hb horder)).trans (failure?_map _ _)
    · rintro ⟨i, index⟩ hi hne
      rw [List.mem_zipIdx_iff_getElem?] at hi
      apply failure?_flowSuccessors_of_mem horder
      have hindex : index ∈ front ++ [last] := by
        rw [← horder, executionOrder_eq hb, Block.mem_executionOrder]
        exact (List.getElem?_eq_some_iff.1 hi).1
      refine (List.mem_append.1 hindex).resolve_right fun heq => hne ?_
      obtain rfl := List.mem_singleton.1 heq
      exact congrArg (·, index) (Option.some.inj (hi.symm.trans hlast))

theorem failure?_blockGraph (f : Function) :
    failure? (BlockGraph.ofFunction f) = f.danglingTarget?.map (.unresolvedLabel f.name) := by
  rw [BlockGraph.ofFunction, failure?_map, failure?_mapM]
  apply findSome?_zipIdx_blocks
  intro b block hb
  exact (failure?_map _ _).trans (failure?_successorBlocks hb)

theorem failure?_instructionGraph (f : Function) :
    failure? (InstructionGraph.ofFunction f) = f.danglingTarget?.map (.unresolvedLabel f.name) := by
  rw [InstructionGraph.ofFunction, failure?_map, failure?_mapM, positions, located,
    List.findSome?_map, findSome?_flatMap]
  apply findSome?_zipIdx_blocks
  intro b block hb
  rw [List.findSome?_map, ← failure?_successorBlocks hb, ← findSome?_flowSuccessors hb]
  congr 1
  funext pair
  exact failure?_map _ _

/-- All graphs of the function can be built. -/
structure HasGraphs (f : Function) : Prop where
  blocks : ∃ g, BlockGraph.ofFunction f = .ok g
  instructions : ∃ g, InstructionGraph.ofFunction f = .ok g
  liveness : ∃ l, Liveness.ofFunction f = .ok l
  interference : ∃ g, InterferenceGraph.ofFunction f = .ok g

/-- None of the graphs of the function can be built, for the same reason. -/
structure LacksGraphs (f : Function) (e : Error) : Prop where
  blocks : BlockGraph.ofFunction f = .error e
  instructions : InstructionGraph.ofFunction f = .error e
  liveness : Liveness.ofFunction f = .error e
  interference : InterferenceGraph.ofFunction f = .error e

theorem failure?_liveness (f : Function) :
    failure? (Liveness.ofFunction f) = f.danglingTarget?.map (.unresolvedLabel f.name) :=
  (failure?_map _ _).trans (failure?_instructionGraph f)

theorem failure?_interferenceGraph (f : Function) :
    failure? (InterferenceGraph.ofFunction f) = f.danglingTarget?.map (.unresolvedLabel f.name) :=
  (failure?_map _ _).trans (failure?_liveness f)

theorem failure?_interferenceIndex (G : Type) [NumberedGraph G] (f : Function) :
    failure? (InterferenceIndex.ofFunction f : Except Error (InterferenceIndex G)) =
      f.danglingTarget?.map (.unresolvedLabel f.name) :=
  (failure?_map _ _).trans (failure?_liveness f)

theorem hasGraphs_iff : f.HasGraphs ↔ f.danglingTarget? = none := by
  have hnone : f.danglingTarget?.map (Error.unresolvedLabel f.name) = none ↔
      f.danglingTarget? = none := Option.map_eq_none_iff
  rw [← hnone]
  constructor
  · intro h
    rw [← failure?_blockGraph, failure?_eq_none_iff]
    exact h.blocks
  · intro h
    constructor
    · rw [← failure?_eq_none_iff, failure?_blockGraph, h]
    · rw [← failure?_eq_none_iff, failure?_instructionGraph, h]
    · rw [← failure?_eq_none_iff, failure?_liveness, h]
    · rw [← failure?_eq_none_iff, failure?_interferenceGraph, h]

theorem lacksGraphs_iff :
    f.LacksGraphs e ↔ f.danglingTarget?.map (.unresolvedLabel f.name) = some e := by
  constructor
  · intro h
    rw [← failure?_blockGraph, failure?_eq_some_iff]
    exact h.blocks
  · intro h
    constructor
    · rw [← failure?_eq_some_iff, failure?_blockGraph, h]
    · rw [← failure?_eq_some_iff, failure?_instructionGraph, h]
    · rw [← failure?_eq_some_iff, failure?_liveness, h]
    · rw [← failure?_eq_some_iff, failure?_interferenceGraph, h]

/-- The index of a function comes about if its graphs do, and fails for the same reason if not. -/
theorem index_fails_with_graphs (G : Type) [NumberedGraph G] (f : Function) :
    ((∃ g : InterferenceIndex G, InterferenceIndex.ofFunction f = .ok g) ↔ f.HasGraphs) ∧
      ∀ e, (InterferenceIndex.ofFunction f : Except Error (InterferenceIndex G)) = .error e ↔
        f.LacksGraphs e := by
  constructor
  · rw [hasGraphs_iff, ← failure?_eq_none_iff, failure?_interferenceIndex, Option.map_eq_none_iff]
  · intro e
    rw [lacksGraphs_iff, ← failure?_eq_some_iff, failure?_interferenceIndex]

/-- A valid function branches to its own blocks only. -/
theorem danglingTarget?_of_validate (hvalid : f.validate = .ok ()) : f.danglingTarget? = none := by
  rw [danglingTarget?_eq_none_iff]
  intro b hb label hlabel
  rw [Block.targets] at hlabel
  cases hterm : b.terminator? with
  | none => simp [hterm] at hlabel
  | some t =>
      rw [hterm, Option.map_some, Option.getD_some] at hlabel
      have ht := mem_instructions_of_block hb (Block.mem_of_terminator? hterm)
      exact (wellFormed_of_mem hvalid ht).targets_exist t ht label hlabel

/-- Copies for phis stand behind the terminators of their blocks and change no label. -/
theorem danglingTarget?_withCopies (f : Function) :
    f.withCopies.danglingTarget? = f.danglingTarget? := by
  rw [danglingTarget?, danglingTarget?, labels_withCopies, withCopies, List.findSome?_map]
  congr 1
  funext b
  rw [Function.comp_apply, Block.targets, Block.targets, (terminator?_and_body_withoutPhis f b).1]

/-- What eliminating phis makes of a valid function branches to its own blocks only. -/
theorem danglingTarget?_of_eliminatePhis (hvalid : f.validate = .ok ())
    (h : f.eliminatePhis = .ok (g, n)) : g.danglingTarget? = none := by
  obtain ⟨rfl, -⟩ := eq_withCopies_of_eliminatePhis (nodup_labels_of_validate hvalid) h
  exact (danglingTarget?_withCopies f).trans (danglingTarget?_of_validate hvalid)

/-- Either all graphs of a function can be built or none, for one reason. They can be if the last
terminator of every block branches to labels of blocks only. Otherwise the reason is the first label
that no block has among those that the first such block branches to. In particular, valid functions
have all graphs, with their phis and without them. -/
theorem graphs_fail_together (f : Function) :
    (f.HasGraphs ∨ ∃ e, f.LacksGraphs e) ∧
    (f.HasGraphs ↔ ∀ b ∈ f.blocks, ∀ label ∈ b.targets, label ∈ f.labels) ∧
    (∀ e, f.LacksGraphs e ↔
      ∃ label, f.danglingTarget? = some label ∧ e = .unresolvedLabel f.name label) ∧
    (f.validate = .ok () →
      f.HasGraphs ∧ ∀ g n, f.eliminatePhis = .ok (g, n) → g.HasGraphs) := by
  refine ⟨?_, hasGraphs_iff.trans danglingTarget?_eq_none_iff, fun e => ?_, fun hvalid => ?_⟩
  · cases h : f.danglingTarget? with
    | none => exact .inl (hasGraphs_iff.2 h)
    | some label => exact .inr ⟨_, lacksGraphs_iff.2 (by rw [h]; rfl)⟩
  · rw [lacksGraphs_iff, Option.map_eq_some_iff]
    simp only [eq_comm]
  · refine ⟨hasGraphs_iff.2 (danglingTarget?_of_validate hvalid), fun g n h => ?_⟩
    exact hasGraphs_iff.2 (danglingTarget?_of_eliminatePhis hvalid h)

/-- A function with an empty block, a branch to a missing label that a later terminator overrides,
and a branch whose false side is missing. -/
def stray : Function where
  name := "stray"
  returnType := "void"
  parameters := [{ name := some "c", type := "i1" }]
  blocks :=
    [{ label := "entry" },
     { label := "test"
       instructions := [.branch "nowhere", .condBranch (.argument "c" "i1") "done" "missing",
         .copy "x" none (.int 0 "i32")] },
     { label := "done", instructions := [.branch "lost"] }]

/-- A loop on a phi. -/
def whirl : Function where
  name := "whirl"
  returnType := "void"
  blocks :=
    [{ label := "entry", instructions := [.branch "loop"] },
     { label := "loop"
       instructions :=
         [{ result := some "x", opcode := .phi, type := some "i32"
            incoming := [(.int 0 "i32", "entry"), (.temp "x" "i32", "loop")] },
          .branch "loop"] }]

theorem graphs_fail_together_stray_whirl :
    stray.LacksGraphs (.unresolvedLabel "stray" "missing") ∧ whirl.validate = .ok () ∧
      whirl.HasGraphs ∧ ∃ g, whirl.eliminatePhis = .ok (g, 1) ∧ g.HasGraphs := by
  obtain ⟨-, -, hstray, -⟩ := graphs_fail_together stray
  obtain ⟨-, -, -, hwhirl⟩ := graphs_fail_together whirl
  have hvalid : whirl.validate = .ok () := rfl
  have helim : whirl.eliminatePhis = .ok (whirl.withCopies, 1) := rfl
  refine ⟨(hstray _).2 ⟨"missing", rfl, rfl⟩, hvalid, (hwhirl hvalid).1, _, helim, ?_⟩
  exact (hwhirl hvalid).2 _ _ helim

end Function

end SsaIr
