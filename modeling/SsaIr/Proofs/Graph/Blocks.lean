import SsaIr.Graph.Blocks
import SsaIr.Proofs.ExecutionOrder

/-!
# The graph of the blocks

A block has an edge to each block that it goes on to, in order. Where all blocks have instructions,
this graph is the instruction graph with the instructions of a block taken together: the end of a
block goes on to where the next blocks start, and control comes to an instruction exactly if it
comes to the block.
-/

namespace SsaIr

theorem filter_flatten_of_key {α : Type} {key : α → Nat} {groups : List (List α)} {n : Nat}
    (h : ∀ k group, groups[k]? = some group → ∀ a ∈ group, key a = n + k) (k : Nat) :
    groups.flatten.filter (key · = n + k) = (groups[k]?).getD [] := by
  induction groups generalizing n k with
  | nil => simp
  | cons group groups ih =>
      have hrest : ∀ k group, groups[k]? = some group → ∀ a ∈ group, key a = n + 1 + k := by
        intro k group hgroup a ha
        rw [h (k + 1) group hgroup a ha]
        omega
      rw [List.flatten_cons, List.filter_append]
      cases k with
      | zero =>
          have hhere : ∀ a ∈ group, key a = n := h 0 group rfl
          have hlater : ∀ a ∈ groups.flatten, key a ≠ n := by
            intro a ha
            obtain ⟨later, hlater, ha⟩ := List.mem_flatten.1 ha
            obtain ⟨j, hj⟩ := List.mem_iff_getElem?.1 hlater
            have hkey := hrest j later hj a ha
            omega
          rw [List.filter_eq_self.2 (by simpa using hhere),
            List.filter_eq_nil_iff.2 (by simpa using hlater)]
          simp
      | succ k =>
          have hhere : ∀ a ∈ group, key a ≠ n + (k + 1) := by
            intro a ha
            have hkey := h 0 group rfl a ha
            omega
          have hih := ih hrest k
          rw [show n + 1 + k = n + (k + 1) by omega] at hih
          rw [List.filter_eq_nil_iff.2 (by simpa using hhere), hih, List.nil_append]
          rfl

theorem Instruction.length_branchTargets_le (i : Instruction) : i.branchTargets.length ≤ 2 := by
  unfold Instruction.branchTargets
  refine (List.length_filterMap_le _ _).trans ?_
  split <;> simp

namespace BlockGraph

variable {f : Function} {g : BlockGraph} {b : Block} {p q : Nat} {ts : List Nat}

/-- There is a kind of edge for each successor. -/
theorem length_le_length_edgeKinds (hb : f.blocks[p]? = some b)
    (h : f.successorBlocks p = .ok ts) : ts.length ≤ (edgeKinds b).length := by
  rw [Function.successorBlocks, hb] at h
  unfold edgeKinds
  cases hterm : b.terminator? with
  | none =>
      simp only [hterm, Except.ok.injEq] at h
      subst h
      split <;> simp
  | some t =>
      simp only [hterm] at h
      split at h
      · have hlength := (mapM_eq_ok_iff.1 h).length_eq
        have hle := t.length_branchTargets_le
        have hcases : t.branchTargets.length = 0 ∨ t.branchTargets.length = 1 ∨
            t.branchTargets.length = 2 := by omega
        rw [← hlength, Option.map_some]
        rcases hcases with h₀ | h₁ | h₂
        · simp [h₀]
        · simp [h₁]
        · simp [h₂]
      · cases h
        simp

/-- The edges that leave a block lead to its successors, in order. -/
theorem edgesFrom_eq_ok (hb : f.blocks[p]? = some b) {edges : List BlockEdge}
    (h : edgesFrom f b p = .ok edges) : (∀ e ∈ edges, e.source = p) ∧
      f.successorBlocks p = .ok (edges.map BlockEdge.target) := by
  obtain ⟨ts, hts, rfl⟩ := map_eq_ok_iff.1 h
  constructor
  · intro e he
    obtain ⟨pair, -, rfl⟩ := List.mem_map.1 he
    rfl
  · rw [hts, List.map_map]
    congr 1
    exact (List.map_fst_zip (length_le_length_edgeKinds hb hts)).symm

theorem labels_of_ofFunction (h : ofFunction f = .ok g) : g.labels = f.labels := by
  obtain ⟨edges, -, rfl⟩ := map_eq_ok_iff.1 h
  rfl

/-- The edges of the graph with a block as their source are those that leave the block. -/
theorem edgesFrom_eq_filter (h : ofFunction f = .ok g) (hb : f.blocks[p]? = some b) :
    edgesFrom f b p = .ok (g.edges.filter (·.source = p)) := by
  obtain ⟨groups, hgroups, rfl⟩ := map_eq_ok_iff.1 h
  have hgroup : ∀ {k group}, groups[k]? = some group →
      ∃ b, f.blocks[k]? = some b ∧ edgesFrom f b k = .ok group := by
    intro k group hk
    obtain ⟨⟨b, source⟩, hb, hedges⟩ := (getElem?_result_iff hgroups).1 hk
    rw [List.getElem?_zipIdx, Option.map_eq_some_iff] at hb
    obtain ⟨b, hb, heq⟩ := hb
    cases heq
    rw [Nat.zero_add] at hedges
    exact ⟨b, hb, hedges⟩
  have hkey : ∀ k group, groups[k]? = some group → ∀ e ∈ group, e.source = 0 + k := by
    intro k group hk e he
    obtain ⟨b, hb, hedges⟩ := hgroup hk
    rw [Nat.zero_add]
    exact (edgesFrom_eq_ok hb hedges).1 e he
  have hlength : groups.length = f.blocks.length := by
    rw [← (mapM_eq_ok_iff.1 hgroups).length_eq, List.length_zipIdx]
  have hp := (List.getElem?_eq_some_iff.1 hb).1
  have hk : groups[p]? = some groups[p] := List.getElem?_eq_getElem (by omega)
  obtain ⟨b', hb', hedges⟩ := hgroup hk
  obtain rfl := Option.some.inj (hb.symm.trans hb')
  have hfilter := filter_flatten_of_key hkey p
  rw [Nat.zero_add, hk, Option.getD_some] at hfilter
  rw [hfilter, hedges]

/-- The targets of a block are the blocks that it goes on to. -/
theorem successorBlocks_eq_targets (h : ofFunction f = .ok g) (hp : p < f.blocks.length) :
    f.successorBlocks p = .ok (g.targets p) := by
  have hb := List.getElem?_eq_getElem hp
  exact (edgesFrom_eq_ok hb (edgesFrom_eq_filter h hb)).2

/-- The edges lead from blocks to those they go on to. -/
theorem mem_targets_iff_enters (h : ofFunction f = .ok g) (hp : p < f.blocks.length) :
    q ∈ g.targets p ↔ f.Enters p q := by
  rw [Function.Enters, successorBlocks_eq_targets h hp]
  simp

theorem mem_nodes_iff (h : ofFunction f = .ok g) : p ∈ g.nodes ↔ p < f.blocks.length := by
  rw [nodes, List.mem_range, labels_of_ofFunction h, Function.labels, List.length_map]

theorem label_eq (h : ofFunction f = .ok g) (hb : f.blocks[p]? = some b) :
    g.label p = b.label := by
  rw [label, labels_of_ofFunction h, Function.labels, List.getElem?_map, hb]
  rfl

/-- Where labels are distinct, the unreachable labels are those of the blocks that control does not
come to. -/
theorem mem_unreachable_iff (h : ofFunction f = .ok g) (hlabels : f.labels.Nodup)
    (hb : f.blocks[p]? = some b) : b.label ∈ g.unreachable ↔ p ∉ g.reachable := by
  have hp := (List.getElem?_eq_some_iff.1 hb).1
  simp only [unreachable, List.mem_map, List.mem_filter, decide_eq_true_eq]
  constructor
  · rintro ⟨q, ⟨hq, hnot⟩, hlabel⟩
    have hq := List.getElem?_eq_getElem ((mem_nodes_iff h).1 hq)
    rw [label_eq h hq] at hlabel
    have hp' : f.labels[p]? = f.labels[q]? := by
      rw [Function.labels, List.getElem?_map, List.getElem?_map, hb, hq, Option.map_some,
        Option.map_some, hlabel]
    have hlt : p < f.labels.length := by rwa [Function.labels, List.length_map]
    rwa [(List.getElem?_inj hlt hlabels).1 hp']
  · intro hnot
    exact ⟨p, ⟨(mem_nodes_iff h).2 hp, hnot⟩, label_eq h hb⟩

end BlockGraph

namespace Function

variable {f : Function} {g : InstructionGraph} {c : BlockGraph} {p : Position} {block : Nat}

/-- Where control comes to an instruction, it comes to its block. -/
theorem mem_reachable_of_mem_reachable (hg : InstructionGraph.ofFunction f = .ok g)
    (hc : BlockGraph.ofFunction f = .ok c) (h : p ∈ g.reachable) : p.block ∈ c.reachable := by
  have hlt : ∀ {p : Position}, p ∈ g.nodes → p.block < f.blocks.length := by
    intro p hp
    rw [InstructionGraph.nodes_of_ofFunction hg, mem_positions, instruction?] at hp
    obtain ⟨i, hi⟩ := Option.isSome_iff_exists.1 hp
    obtain ⟨b, hb, -⟩ := Option.bind_eq_some_iff.1 hi
    exact (List.getElem?_eq_some_iff.1 hb).1
  apply Reachability.mem_reachable_iff.2
  induction Reachability.mem_reachable_iff.1 h with
  | @start p hstart hp =>
      have hentry : p.block = 0 := by
        rw [InstructionGraph.start_of_ofFunction hg, Option.mem_toList, entryPoint?] at hstart
        split at hstart
        · cases hstart
        · cases hstart
          rfl
      exact .start (by simp [hentry]) ((BlockGraph.mem_nodes_iff hc).2 (hlt hp))
  | @step p q hp hq hnode ih =>
      have hp' := hlt hp.mem_nodes
      have ih := ih (Reachability.mem_reachable_iff.2 hp)
      have hstep : f.Steps p q := (InstructionGraph.mem_targets_iff hg).1 hq
      obtain ⟨front, back, hsplit⟩ := exists_split_order hstep.1
      rcases (steps_iff hsplit).1 hstep with hnext | ⟨-, henters, -⟩
      · have hmem : q ∈ f.order p.block := by
          rw [hsplit]
          exact List.mem_append_right _ (List.mem_cons_of_mem _ (List.mem_of_mem_head? hnext))
        rw [(mem_order.1 hmem).1]
        exact ih
      · exact .step ih ((BlockGraph.mem_targets_iff_enters hc hp').2 henters)
          ((BlockGraph.mem_nodes_iff hc).2 (hlt hnode))

/-- Where all blocks have instructions and control comes to a block, it comes to all its
instructions. -/
theorem mem_reachable_of_block (hg : InstructionGraph.ofFunction f = .ok g)
    (hc : BlockGraph.ofFunction f = .ok c) (hne : ∀ b ∈ f.blocks, b.instructions ≠ [])
    (h : block ∈ c.reachable) : ∀ p ∈ f.order block, p ∈ g.reachable := by
  have hnode : ∀ {p}, (f.instruction? p).isSome → p ∈ g.nodes := by
    intro p hp
    rw [InstructionGraph.nodes_of_ofFunction hg]
    exact mem_positions.2 hp
  have hmove : ∀ {q r}, f.Steps q r → q ∈ g.reachable → r ∈ g.reachable := by
    intro q r hstep hq
    rw [InstructionGraph.reachable, Reachability.mem_reachable_iff] at hq ⊢
    exact hq.step ((InstructionGraph.mem_targets_iff hg).2 hstep) (hnode hstep.2.1)
  have halong : ∀ {block}, (∀ q, (f.order block).head? = some q → q ∈ g.reachable) →
      ∀ p ∈ f.order block, p ∈ g.reachable := by
    intro block hhead p hp
    obtain ⟨front, back, hsplit⟩ := List.append_of_mem hp
    exact order_induction hsplit hhead fun q _ r hstep hq => hmove hstep hq
  induction Reachability.mem_reachable_iff.1 h with
  | @start block hstart _ =>
      rw [List.mem_singleton] at hstart
      subst hstart
      apply halong
      intro p hp
      obtain ⟨hentry, hsome⟩ := entryPoint?_eq_some_iff.2 hp
      rw [InstructionGraph.reachable, Reachability.mem_reachable_iff]
      refine .start ?_ (hnode hsome)
      rw [InstructionGraph.start_of_ofFunction hg, Option.mem_toList]
      exact hentry
  | @step block next hblock hnext _ ih =>
      have ih := ih (Reachability.mem_reachable_iff.2 hblock)
      have hlt := (BlockGraph.mem_nodes_iff hc).1 hblock.mem_nodes
      have henters := (BlockGraph.mem_targets_iff_enters hc hlt).1 hnext
      have hlast : f.order block ≠ [] := order_ne_nil hne hlt
      apply halong
      intro q hq
      have hsplit := (List.dropLast_append_getLast hlast).symm
      have hq' : q.block = next := (mem_order.1 (List.mem_of_mem_head? hq)).1
      refine hmove ((steps_iff hsplit).2 (.inr ⟨rfl, ?_, ?_⟩)) (ih _ (List.getLast_mem hlast))
      · rwa [hq']
      · rwa [hq']

/-- Where all blocks have instructions and distinct labels, the block graph is the instruction graph
with the instructions of each block taken together. What a block goes on to are, in order and with
repetitions, the blocks that its last instruction to run steps to; and control comes to an
instruction exactly if the label of its block is not among the unreachable ones. -/
theorem blockGraph_is_quotient (hg : InstructionGraph.ofFunction f = .ok g)
    (hc : BlockGraph.ofFunction f = .ok c) (hne : ∀ b ∈ f.blocks, b.instructions ≠ [])
    (hlabels : f.labels.Nodup) :
    (∀ block < f.blocks.length, ∃ last targets, (f.executionOrder block).getLast? = some last ∧
      f.flowSuccessors ⟨block, last⟩ = .ok targets ∧
      f.successorBlocks block = .ok (targets.map Position.block)) ∧
    ∀ p b i, f.blocks[p.block]? = some b → f.instruction? p = some i →
      (p ∈ g.reachable ↔ b.label ∉ c.unreachable) := by
  constructor
  · intro block hblock
    obtain ⟨front, last, hsplit⟩ : ∃ front last, f.executionOrder block = front ++ [last] := by
      have horder := order_ne_nil hne hblock
      rw [order, Ne, List.map_eq_nil_iff] at horder
      exact ⟨_, _, (List.dropLast_append_getLast horder).symm⟩
    have hsuccessors := BlockGraph.successorBlocks_eq_targets hc hblock
    refine ⟨last, (c.targets block).map f.blockEntry, ?_, ?_, ?_⟩
    · rw [hsplit, List.getLast?_concat]
    · rw [flowSuccessors_of_last (List.getElem?_eq_getElem hblock) hsplit, hsuccessors]
      rfl
    · rw [hsuccessors, List.map_map]
      congr 1
      exact (List.map_id _).symm
  · intro p b i hb hi
    rw [BlockGraph.mem_unreachable_iff hc hlabels hb, not_not]
    constructor
    · exact mem_reachable_of_mem_reachable hg hc
    · intro hreach
      apply mem_reachable_of_block hg hc hne hreach
      exact mem_order.2 ⟨rfl, by rw [hi]; rfl⟩

/-- A branch whose sides join again, a copy behind it that runs before it, and a block that nothing
goes on to. -/
def diamond : Function where
  name := "diamond"
  returnType := "void"
  parameters := [{ name := some "c", type := "i1" }]
  blocks :=
    [{ label := "entry"
       instructions := [.condBranch (.argument "c" "i1") "left" "right",
         .copy "x" none (.int 0 "i32")] },
     { label := "left", instructions := [.branch "join"] },
     { label := "right", instructions := [.copy "x" none (.int 1 "i32")] },
     { label := "join", instructions := [{ opcode := .ret, type := some "void" }] },
     { label := "dead", instructions := [.branch "join"] }]

/-- The instruction graph of `diamond`. -/
def diamondGraph : InstructionGraph where
  nodes := [⟨0, 0⟩, ⟨0, 1⟩, ⟨1, 0⟩, ⟨2, 0⟩, ⟨3, 0⟩, ⟨4, 0⟩]
  edges := [(⟨0, 0⟩, ⟨1, 0⟩), (⟨0, 0⟩, ⟨2, 0⟩), (⟨0, 1⟩, ⟨0, 0⟩), (⟨1, 0⟩, ⟨3, 0⟩),
    (⟨2, 0⟩, ⟨3, 0⟩), (⟨4, 0⟩, ⟨3, 0⟩)]
  start := some ⟨0, 1⟩

/-- The block graph of `diamond`. -/
def diamondBlocks : BlockGraph where
  labels := ["entry", "left", "right", "join", "dead"]
  edges := [⟨0, 1, .whenTrue⟩, ⟨0, 2, .whenFalse⟩, ⟨1, 3, .jump⟩, ⟨2, 3, .fallthrough⟩,
    ⟨4, 3, .jump⟩]

theorem blockGraph_is_quotient_diamond : InstructionGraph.ofFunction diamond = .ok diamondGraph ∧
    BlockGraph.ofFunction diamond = .ok diamondBlocks ∧
      diamondBlocks.unreachable = ["dead"] ∧ ⟨3, 0⟩ ∈ diamondGraph.reachable ∧
        ⟨4, 0⟩ ∉ diamondGraph.reachable := by
  have hg : InstructionGraph.ofFunction diamond = .ok diamondGraph := rfl
  have hc : BlockGraph.ofFunction diamond = .ok diamondBlocks := rfl
  have hunreachable : diamondBlocks.unreachable = ["dead"] := by cbv
  obtain ⟨-, hreach⟩ := blockGraph_is_quotient hg hc (by decide) (by decide)
  refine ⟨hg, hc, hunreachable, ?_, ?_⟩
  · apply (hreach ⟨3, 0⟩ _ _ rfl rfl).2
    rw [hunreachable]
    decide
  · intro h
    have hlabel := (hreach ⟨4, 0⟩ _ _ rfl rfl).1 h
    rw [hunreachable] at hlabel
    exact hlabel (by decide)

end Function

end SsaIr
