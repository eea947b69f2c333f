import SsaIr.Proofs.ExecutionOrder.Textual

/-!
# The way through a block

Control that has entered a block where it starts goes from instruction to instruction, each time to
exactly one place in the block, until it has been at every instruction once. It passes them as they
are written, the last terminator excepted, which comes at the end. So only what comes at the end,
the last terminator or without one the last instruction, can lead out of the block.
-/

namespace SsaIr

namespace Block

variable {b : Block} {t : Nat}

/-- The index is that of the last terminator. -/
structure IsLastTerminator (b : Block) (t : Nat) : Prop where
  terminator : ∃ i, b.instructions[t]? = some i ∧ i.isTerminator = true
  last : ∀ j i, t < j → b.instructions[j]? = some i → i.isTerminator = false

/-- The index is that of the instruction that runs last: of the last terminator, or without one of
the last instruction. -/
def IsExit (b : Block) (t : Nat) : Prop :=
  b.IsLastTerminator t ∨ (∀ i ∈ b.instructions, i.isTerminator = false) ∧ t + 1 = b.size

theorem isLastTerminator_of_split {front back : List Instruction} {i : Instruction}
    (h : b.instructions = front ++ i :: back) (hi : i.isTerminator = true)
    (hback : ∀ j ∈ back, j.isTerminator = false) : b.IsLastTerminator front.length where
  terminator := ⟨i, by rw [h]; simp, hi⟩
  last j k hj hk := by
    rw [h, List.getElem?_append_right (Nat.le_of_lt hj)] at hk
    obtain ⟨n, hn⟩ : ∃ n, j - front.length = n + 1 := ⟨j - front.length - 1, by omega⟩
    rw [hn, List.getElem?_cons_succ] at hk
    exact hback k (List.mem_of_getElem? hk)

/-- The order of a block with instructions ends at its exit, and is in front of that the written one
without the last terminator. -/
theorem exists_executionOrder_eq (hne : b.instructions ≠ []) :
    ∃ front t, b.executionOrder = front ++ [t] ∧ b.IsExit t ∧ front.Pairwise (· < ·) ∧
      (b.IsLastTerminator t ∨ ∀ i ∈ front, i < t) := by
  rcases b.terminator_cases with hnone | ⟨before, i, after, hsplit, hi, hafter⟩
  · obtain ⟨n, hn⟩ : ∃ n, b.size = n + 1 :=
      Nat.exists_eq_succ_of_ne_zero fun h => hne (List.length_eq_zero_iff.1 h)
    refine ⟨List.range n, n, ?_, .inr ⟨hnone, hn.symm⟩, List.pairwise_lt_range, .inr ?_⟩
    · rw [executionOrder_of_none hnone, hn, List.range_succ]
    · intro i hi
      exact List.mem_range.1 hi
  · have hlast := isLastTerminator_of_split hsplit hi hafter
    refine ⟨_, _, executionOrder_of_split hsplit hi hafter, .inl hlast, ?_, .inl hlast⟩
    refine List.pairwise_append.2 ⟨List.pairwise_lt_range, List.pairwise_lt_range', ?_⟩
    intro j hj k hk
    have hj' := List.mem_range.1 hj
    have hk' := (List.mem_range'_1.1 hk).1
    omega

/-- All but the last terminator run as they are written. -/
theorem pairwise_executionOrder (b : Block) : b.executionOrder.Pairwise fun i j =>
    ¬b.IsLastTerminator i → ¬b.IsLastTerminator j → i < j := by
  by_cases hne : b.instructions = []
  · rw [executionOrder_eq_nil_iff.2 hne]
    exact .nil
  · obtain ⟨front, t, horder, -, hfront, ht⟩ := exists_executionOrder_eq hne
    rw [horder]
    refine List.pairwise_append.2 ⟨hfront.imp fun h _ _ => h, List.pairwise_singleton _ _, ?_⟩
    intro i hi j hj _ hj'
    obtain rfl := List.mem_singleton.1 hj
    rcases ht with hlast | hlt
    · exact absurd hlast hj'
    · exact hlt i hi

end Block

namespace Function

variable {f : Function} {b : Block} {block : Nat}

/-- Follow control for so many steps, as long as each leads to exactly one place. -/
def walk? (f : Function) : Nat → Position → Option (List Position)
  | 0, p => some [p]
  | n + 1, p =>
    match f.flowSuccessors p with
    | .ok [q] => (f.walk? n q).map (p :: ·)
    | _ => none

/-- From any place in its order, the rest of a block is walked through step by step. -/
theorem walk?_of_order {front rest : List Nat} {i : Nat}
    (h : f.executionOrder block = front ++ i :: rest) :
    f.walk? rest.length ⟨block, i⟩ = some ((i :: rest).map (Position.mk block)) := by
  induction rest generalizing front i with
  | nil => rfl
  | cons j rest ih =>
      have hrest : f.walk? rest.length ⟨block, j⟩ = some ((j :: rest).map (Position.mk block)) :=
        ih (show f.executionOrder block = (front ++ [i]) ++ j :: rest by simpa using h)
      rw [List.length_cons, walk?, flowSuccessors_of_next h]
      dsimp only
      rw [hrest]
      rfl

theorem walk?_blockEntry (hb : f.blocks[block]? = some b) (hne : b.instructions ≠ []) :
    f.walk? (b.size - 1) (f.blockEntry block) = some (f.order block) := by
  have horder := executionOrder_eq hb
  obtain ⟨i, rest, hcons⟩ := List.exists_cons_of_ne_nil (mt b.executionOrder_eq_nil_iff.1 hne)
  have hlength := b.perm_executionOrder.length_eq
  rw [hcons, List.length_cons, List.length_range] at hlength
  have hentry : f.blockEntry block = ⟨block, i⟩ := by rw [blockEntry, horder, hcons]; rfl
  rw [hentry, ← hlength, Nat.add_sub_cancel, order, horder, hcons]
  rw [hcons] at horder
  exact walk?_of_order (horder.trans (List.nil_append (i :: rest)).symm)

/-- In front of the exit, control goes on to one place in the block. -/
theorem exists_flowSuccessors_of_ne {front : List Nat} {i t : Nat}
    (h : f.executionOrder block = front ++ [t]) (hi : i ∈ f.executionOrder block) (hne : i ≠ t) :
    ∃ j ∈ f.executionOrder block, f.flowSuccessors ⟨block, i⟩ = .ok [⟨block, j⟩] := by
  obtain ⟨before, after, hsplit⟩ := List.append_of_mem hi
  cases after with
  | nil =>
      rw [h] at hsplit
      exact absurd (List.cons.inj (List.append_inj' hsplit rfl).2).1.symm hne
  | cons j after =>
      refine ⟨j, ?_, flowSuccessors_of_next hsplit⟩
      rw [hsplit]
      simp

/-- Whoever enters a block where it starts is led, step by step to exactly one place, to each of its
instructions once: first to all but the last terminator as they are written, then to that one. And
no instruction but the one at the end of this way leads out of the block. -/
theorem walk_visits_block (hb : f.blocks[block]? = some b) (hne : b.instructions ≠ []) :
    ∃ (visited : List Position) (exit : Nat),
      f.walk? (b.size - 1) (f.blockEntry block) = some visited ∧
      visited.Perm ((List.range b.size).map (Position.mk block)) ∧
      (visited.Pairwise fun p q =>
        ¬b.IsLastTerminator p.index → ¬b.IsLastTerminator q.index → p.index < q.index) ∧
      visited.getLast? = some ⟨block, exit⟩ ∧ b.IsExit exit ∧
      ∀ i < b.size, i ≠ exit →
        ∃ j < b.size, f.flowSuccessors ⟨block, i⟩ = .ok [⟨block, j⟩] := by
  have horder := executionOrder_eq hb
  obtain ⟨front, t, hsplit, hexit, -, -⟩ := b.exists_executionOrder_eq hne
  refine ⟨f.order block, t, walk?_blockEntry hb hne, ?_, ?_, ?_, hexit, ?_⟩
  · rw [order, horder]
    exact b.perm_executionOrder.map _
  · rw [order, horder, List.pairwise_map]
    exact b.pairwise_executionOrder
  · rw [order, horder, hsplit, List.map_append, List.map_singleton, List.getLast?_concat]
  · intro i hi hne
    obtain ⟨j, hj, hstep⟩ := exists_flowSuccessors_of_ne (horder.trans hsplit)
      (by rwa [horder, Block.mem_executionOrder]) hne
    rw [horder, Block.mem_executionOrder] at hj
    exact ⟨j, hj, hstep⟩

/-- A block with two terminators, two copies behind the later one, and a second block. -/
def detour : Function where
  name := "detour"
  returnType := "void"
  blocks :=
    [{ label := "start"
       instructions := [.copy "a" none (.int 1 "i8"), .branch "stop",
         .copy "b" none (.int 2 "i8"), .branch "stop",
         .copy "c" none (.int 3 "i8"), .copy "d" none (.int 4 "i8")] },
     { label := "stop", instructions := [{ opcode := .ret, type := some "void" }] }]

theorem walk_visits_block_detour :
    detour.walk? 5 (detour.blockEntry 0) =
        some [⟨0, 0⟩, ⟨0, 1⟩, ⟨0, 2⟩, ⟨0, 4⟩, ⟨0, 5⟩, ⟨0, 3⟩] ∧
      detour.flowSuccessors ⟨0, 3⟩ = .ok [⟨1, 0⟩] ∧
      ∀ i < 6, i ≠ 3 → ∃ j < 6, detour.flowSuccessors ⟨0, i⟩ = .ok [⟨0, j⟩] := by
  have hstart : detour.blocks[0]? = some detour.blocks[0] := rfl
  obtain ⟨visited, exit, hwalk, -, -, hlast, -, hinside⟩ :=
    walk_visits_block hstart (List.cons_ne_nil _ _)
  have hvisited : visited = [⟨0, 0⟩, ⟨0, 1⟩, ⟨0, 2⟩, ⟨0, 4⟩, ⟨0, 5⟩, ⟨0, 3⟩] :=
    (Option.some.inj hwalk).symm
  rw [hvisited] at hwalk hlast
  obtain rfl : (3 : Nat) = exit := congrArg Position.index (Option.some.inj hlast)
  exact ⟨hwalk, rfl, hinside⟩

end Function

end SsaIr
