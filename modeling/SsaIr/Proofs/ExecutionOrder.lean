import Mathlib.Data.List.Chain
import SsaIr.Proofs.Flow

/-!
# The order inside a block

A block runs each of its instructions once: first all but the last terminator, as they are written,
and then that one. Control steps along this order, and from its end to the starts of the blocks that
the block goes on to; a block without instructions has no start, so no step leads to it.
-/

namespace SsaIr

theorem dropWhile_ne_append {α : Type} [DecidableEq α] {a : α} {front back : List α}
    (h : a ∉ front) : (front ++ a :: back).dropWhile (· ≠ a) = a :: back := by
  induction front with
  | nil => simp
  | cons b front ih =>
      rw [List.mem_cons, not_or] at h
      rw [List.cons_append, List.dropWhile_cons_of_pos (by simpa using Ne.symm h.1), ih h.2]

namespace Block

variable {b : Block} {t : Instruction} {front back : List Instruction}

/-- All instructions but the last terminator. -/
def body (b : Block) : List Instruction :=
  match b.terminatorIndex? with
  | some t => b.instructions.eraseIdx t
  | none => b.instructions

/-- The instructions in the order they run. -/
def run (b : Block) : List Instruction := b.body ++ b.terminator?.toList

theorem filter_zipIdx_eq_nil {is : List Instruction} (n : Nat)
    (h : ∀ i ∈ is, i.isTerminator = false) : (is.zipIdx n).filter (·.1.isTerminator) = [] := by
  rw [List.filter_eq_nil_iff]
  rintro ⟨i, k⟩ hi
  simp [h i (List.fst_mem_of_mem_zipIdx hi)]

theorem terminatorIndex?_eq_none (h : ∀ i ∈ b.instructions, i.isTerminator = false) :
    b.terminatorIndex? = none := by
  rw [terminatorIndex?, filter_zipIdx_eq_nil 0 h]
  rfl

theorem terminatorIndex?_eq_some (h : b.instructions = front ++ t :: back)
    (ht : t.isTerminator = true) (hback : ∀ i ∈ back, i.isTerminator = false) :
    b.terminatorIndex? = some front.length := by
  rw [terminatorIndex?, h, List.zipIdx_append, List.zipIdx_cons, List.filter_append,
    List.filter_cons_of_pos (by exact ht), filter_zipIdx_eq_nil _ hback, List.map_append]
  simp

/-- A block has no terminator, or a last one. -/
theorem terminator_cases (b : Block) : (∀ i ∈ b.instructions, i.isTerminator = false) ∨
    ∃ front t back, b.instructions = front ++ t :: back ∧ t.isTerminator = true ∧
      ∀ i ∈ back, i.isTerminator = false := by
  generalize b.instructions = is
  induction is with
  | nil => exact .inl (by simp)
  | cons i is ih =>
      rcases ih with hnone | ⟨front, t, back, rfl, ht, hback⟩
      · cases hi : i.isTerminator with
        | true => exact .inr ⟨[], i, is, rfl, hi, hnone⟩
        | false => exact .inl (List.forall_mem_cons.2 ⟨hi, hnone⟩)
      · exact .inr ⟨i :: front, t, back, rfl, ht, hback⟩

section Split

variable (h : b.instructions = front ++ t :: back) (ht : t.isTerminator = true)
  (hback : ∀ i ∈ back, i.isTerminator = false)
include h ht hback

theorem terminator?_of_split : b.terminator? = some t := by
  rw [terminator?, terminatorIndex?_eq_some h ht hback, h]
  simp

theorem body_of_split : b.body = front ++ back := by
  rw [body, terminatorIndex?_eq_some h ht hback, h]
  simp [List.eraseIdx_append_of_length_le]

theorem executionOrder_of_split : b.executionOrder =
    List.range front.length ++ List.range' (front.length + 1) back.length ++ [front.length] := by
  have hsize : b.size - (front.length + 1) = back.length := by
    simp only [size, h, List.length_append, List.length_cons]
    omega
  rw [executionOrder, terminatorIndex?_eq_some h ht hback]
  simp only [hsize]

end Split

section NoTerminator

variable (h : ∀ i ∈ b.instructions, i.isTerminator = false)
include h

theorem terminator?_of_none : b.terminator? = none := by
  rw [terminator?, terminatorIndex?_eq_none h]
  rfl

theorem body_of_none : b.body = b.instructions := by rw [body, terminatorIndex?_eq_none h]

theorem executionOrder_of_none : b.executionOrder = List.range b.size := by
  rw [executionOrder, terminatorIndex?_eq_none h]

end NoTerminator

theorem map_getElem?_range' (front mid back : List Instruction) :
    (List.range' front.length mid.length).map ((front ++ mid ++ back)[·]?) = mid.map some := by
  induction mid generalizing front with
  | nil => rfl
  | cons i mid ih =>
      have hrest := ih (front ++ [i])
      rw [List.length_append, List.length_singleton, List.append_assoc front [i],
        List.singleton_append] at hrest
      rw [List.length_cons, List.range'_succ, List.map_cons, List.map_cons, hrest]
      simp

/-- The order names the instructions that run. -/
theorem map_executionOrder (b : Block) :
    b.executionOrder.map (b.instructions[·]?) = b.run.map some := by
  rcases b.terminator_cases with hnone | ⟨front, t, back, h, ht, hback⟩
  · rw [executionOrder_of_none hnone, run, body_of_none hnone, terminator?_of_none hnone]
    have hall := map_getElem?_range' [] b.instructions []
    rw [List.length_nil, ← List.range_eq_range', List.nil_append, List.append_nil] at hall
    rw [Option.toList_none, List.append_nil]
    exact hall
  · have hfront := map_getElem?_range' [] front (t :: back)
    have hback' := map_getElem?_range' (front ++ [t]) back []
    rw [List.length_nil, ← List.range_eq_range', List.nil_append] at hfront
    rw [List.length_append, List.length_singleton, List.append_nil, List.append_assoc,
      List.singleton_append] at hback'
    rw [executionOrder_of_split h ht hback, run, body_of_split h ht hback,
      terminator?_of_split h ht hback, h, List.map_append, List.map_append, hfront, hback']
    simp

theorem perm_executionOrder (b : Block) : b.executionOrder.Perm (List.range b.size) := by
  rcases b.terminator_cases with hnone | ⟨front, t, back, h, ht, hback⟩
  · rw [executionOrder_of_none hnone]
  · have hsize : b.size = front.length + (back.length + 1) := by simp [size, h]
    rw [executionOrder_of_split h ht hback, hsize, List.range_eq_range', List.range_eq_range',
      ← List.range'_append_1, List.range'_succ, Nat.zero_add, List.append_assoc]
    exact List.perm_append_comm.append_left _

/-- Every instruction runs. -/
theorem mem_run {i : Instruction} : i ∈ b.run ↔ i ∈ b.instructions := by
  rcases b.terminator_cases with hnone | ⟨front, t, back, h, ht, hback⟩
  · rw [run, body_of_none hnone, terminator?_of_none hnone, Option.toList_none, List.append_nil]
  · rw [run, body_of_split h ht hback, terminator?_of_split h ht hback, h, Option.toList_some,
      List.append_assoc]
    exact (List.perm_append_comm.append_left front).mem_iff

theorem isTerminator_of_terminator? (h : b.terminator? = some t) : t.isTerminator = true := by
  rcases b.terminator_cases with hnone | ⟨front, t', back, hsplit, ht, hback⟩
  · rw [terminator?_of_none hnone] at h
    cases h
  · rw [terminator?_of_split hsplit ht hback] at h
    cases h
    exact ht

theorem nodup_executionOrder (b : Block) : b.executionOrder.Nodup :=
  b.perm_executionOrder.nodup_iff.2 List.nodup_range

theorem mem_executionOrder {i : Nat} : i ∈ b.executionOrder ↔ i < b.size := by
  rw [b.perm_executionOrder.mem_iff, List.mem_range]

theorem executionOrder_eq_nil_iff : b.executionOrder = [] ↔ b.instructions = [] := by
  rw [← List.length_eq_zero_iff, ← List.length_eq_zero_iff, b.perm_executionOrder.length_eq,
    List.length_range, size]

end Block

namespace Function

variable {f : Function} {b : Block} {p q : Position} {block i j : Nat}

/-- The positions of the instructions of a block in the order they run. -/
def order (f : Function) (block : Nat) : List Position :=
  (f.executionOrder block).map fun i => ⟨block, i⟩

theorem executionOrder_eq (hb : f.blocks[block]? = some b) :
    f.executionOrder block = b.executionOrder := by
  rw [executionOrder, hb]
  rfl

theorem mem_executionOrder :
    i ∈ f.executionOrder block ↔ (f.instruction? ⟨block, i⟩).isSome := by
  rw [executionOrder, instruction?]
  cases f.blocks[block]? with
  | none => simp
  | some b =>
      rw [Option.map_some, Option.getD_some, Option.bind_some, Block.mem_executionOrder, Block.size,
        Option.isSome_iff_exists]
      constructor
      · exact fun hi => ⟨_, List.getElem?_eq_getElem hi⟩
      · rintro ⟨_, hi⟩
        exact (List.getElem?_eq_some_iff.1 hi).1

theorem mem_order : p ∈ f.order block ↔ p.block = block ∧ (f.instruction? p).isSome := by
  rw [order, List.mem_map]
  constructor
  · rintro ⟨i, hi, rfl⟩
    exact ⟨rfl, mem_executionOrder.1 hi⟩
  · rintro ⟨rfl, hi⟩
    exact ⟨p.index, mem_executionOrder.2 hi, rfl⟩

theorem nodup_executionOrder (f : Function) (block : Nat) : (f.executionOrder block).Nodup := by
  rw [executionOrder]
  cases f.blocks[block]? with
  | none => exact List.nodup_nil
  | some b => exact b.nodup_executionOrder

/-- The order of a block has the positions of the instructions that run. -/
theorem map_instruction?_order (hb : f.blocks[block]? = some b) :
    (f.order block).map f.instruction? = b.run.map some := by
  rw [order, List.map_map, executionOrder_eq hb, ← b.map_executionOrder]
  refine List.map_congr_left fun i _ => ?_
  rw [Function.comp_apply, instruction?, hb]
  rfl

theorem exists_run_of_order {p : Position} {front back : List Position}
    (hb : f.blocks[block]? = some b) (h : f.order block = front ++ p :: back) :
    ∃ before i after, b.run = before ++ i :: after ∧ front.map f.instruction? = before.map some ∧
      f.instruction? p = some i ∧ back.map f.instruction? = after.map some := by
  have hrun := map_instruction?_order hb
  rw [h, List.map_append, List.map_cons] at hrun
  obtain ⟨before, rest, hsplit, hbefore, hrest⟩ := List.map_eq_append_iff.1 hrun.symm
  obtain ⟨i, after, rfl, hi, hafter⟩ := List.map_eq_cons_iff.1 hrest
  exact ⟨before, i, after, hsplit, hbefore.symm, hi.symm, hafter.symm⟩

theorem exists_order_of_run {before after : List Instruction} {i : Instruction}
    (hb : f.blocks[block]? = some b) (h : b.run = before ++ i :: after) :
    ∃ front p back, f.order block = front ++ p :: back ∧
      front.map f.instruction? = before.map some ∧ f.instruction? p = some i ∧
        back.map f.instruction? = after.map some := by
  have hrun := map_instruction?_order hb
  rw [h, List.map_append, List.map_cons] at hrun
  obtain ⟨front, rest, hsplit, hfront, hrest⟩ := List.map_eq_append_iff.1 hrun
  obtain ⟨p, back, rfl, hp, hback⟩ := List.map_eq_cons_iff.1 hrest
  exact ⟨front, p, back, hsplit, hfront, hp, hback⟩

/-- What runs first in a block comes first in its order, if the block has any instructions. -/
theorem head?_order_eq_some_iff :
    (f.order block).head? = some p ↔ p = f.blockEntry block ∧ (f.instruction? p).isSome := by
  constructor
  · intro h
    refine ⟨?_, (mem_order.1 (List.mem_of_mem_head? h)).2⟩
    rw [order, List.head?_map, Option.map_eq_some_iff] at h
    obtain ⟨i, hi, rfl⟩ := h
    rw [blockEntry, hi, Option.getD_some]
  · rintro ⟨rfl, hp⟩
    have hi := mem_executionOrder.2 hp
    rw [order, List.head?_map, blockEntry]
    cases h : f.executionOrder block with
    | nil =>
        rw [h] at hi
        cases hi
    | cons i rest => rfl

theorem order_ne_nil (hne : ∀ b ∈ f.blocks, b.instructions ≠ []) (h : block < f.blocks.length) :
    f.order block ≠ [] := by
  rw [order, Ne, List.map_eq_nil_iff, executionOrder_eq (List.getElem?_eq_getElem h),
    Block.executionOrder_eq_nil_iff]
  exact hne _ (List.getElem_mem h)

/-! ## Steps of control -/

section Split

variable {front back : List Nat}

theorem dropWhile_executionOrder (h : f.executionOrder block = front ++ i :: back) :
    (f.executionOrder block).dropWhile (· ≠ i) = i :: back := by
  have hnodup := f.nodup_executionOrder block
  rw [h, List.nodup_append] at hnodup
  rw [h]
  exact dropWhile_ne_append fun hi => hnodup.2.2 i hi i List.mem_cons_self rfl

/-- Inside a block, control goes on along the order. -/
theorem flowSuccessors_of_next (h : f.executionOrder block = front ++ i :: j :: back) :
    f.flowSuccessors ⟨block, i⟩ = .ok [⟨block, j⟩] := by
  simp only [flowSuccessors, dropWhile_executionOrder h]

/-- At the end of the order, the branches of control as written are the blocks gone on to. -/
theorem map_block_successors (hb : f.blocks[block]? = some b)
    (h : f.executionOrder block = front ++ [i]) :
    (f.successors ⟨block, i⟩).map (List.map Position.block) = f.successorBlocks block := by
  rw [executionOrder_eq hb] at h
  rcases b.terminator_cases with hnone | ⟨ahead, t, behind, hsplit, ht, hbehind⟩
  · have hlast : i + 1 = b.size := by
      rw [Block.executionOrder_of_none hnone] at h
      have hlength := congrArg List.length h
      have hget := congrArg (·[front.length]?) h
      simp only [List.length_range, List.length_append, List.length_singleton] at hlength
      simp only [hlength, List.getElem?_concat_length] at hget
      rw [List.getElem?_range (Nat.lt_succ_self _), Option.some.injEq] at hget
      omega
    have hi : i < b.instructions.length := by
      rw [Block.size] at hlast
      omega
    have hterm := hnone _ (List.getElem_mem hi)
    have hbranch : b.instructions[i].opcode.isBranch = false := by
      apply Bool.eq_false_iff.2
      intro hbranch
      exact absurd (Opcode.isTerminator_of_isBranch hbranch) (Bool.eq_false_iff.1 hterm)
    simp only [successors, successorBlocks, instruction?, hb, Option.bind_some,
      List.getElem?_eq_getElem hi, hbranch, hterm, Block.terminator?_of_none hnone,
      Option.map_some, Option.getD_some, hlast, Nat.lt_irrefl, if_false, Bool.false_eq_true]
    split <;> rfl
  · have hlast : i = ahead.length := by
      rw [Block.executionOrder_of_split hsplit ht hbehind] at h
      exact (List.cons.inj (List.append_inj' h rfl).2).1.symm
    have ht' : b.instructions[i]? = some t := by simp [hlast, hsplit]
    simp only [successors, successorBlocks, instruction?, hb, Option.bind_some, ht', ht,
      Block.terminator?_of_split hsplit ht hbehind, if_true]
    cases t.opcode.isBranch with
    | true =>
        simp only [if_true]
        rw [mapM_comp_map]
        cases t.branchTargets.mapM f.resolve with
        | error e => rfl
        | ok blocks => simp [Except.map, Function.comp_def]
    | false => rfl

/-- At the end of the order, control goes on to where the next blocks start. -/
theorem flowSuccessors_of_last (hb : f.blocks[block]? = some b)
    (h : f.executionOrder block = front ++ [i]) :
    f.flowSuccessors ⟨block, i⟩ = (f.successorBlocks block).map (List.map f.blockEntry) := by
  simp only [flowSuccessors, dropWhile_executionOrder h, ← map_block_successors hb h]
  cases f.successors ⟨block, i⟩ with
  | error e => rfl
  | ok qs => simp [Except.map]

end Split

/-- A step leads to what runs next in the block, and from its last instruction to what runs first in
a block it goes on to. -/
theorem steps_iff {front back : List Position} (h : f.order block = front ++ p :: back) :
    f.Steps p q ↔ back.head? = some q ∨
      back = [] ∧ f.Enters block q.block ∧ (f.order q.block).head? = some q := by
  have hsome : (f.instruction? p).isSome := (mem_order.1 (by rw [h]; simp)).2
  obtain ⟨frontIndices, rest, hsplit, rfl, hrest⟩ := List.map_eq_append_iff.1 h
  obtain ⟨i, backIndices, rfl, rfl, rfl⟩ := List.map_eq_cons_iff.1 hrest
  cases backIndices with
  | cons j backIndices =>
      have hj : (f.instruction? ⟨block, j⟩).isSome :=
        mem_executionOrder.1 (by rw [hsplit]; simp)
      simp only [Steps, hsome, flowSuccessors_of_next hsplit, Except.ok.injEq, exists_eq_left',
        List.mem_singleton, List.map_cons, List.head?_cons, Option.some.injEq, reduceCtorEq,
        false_and, or_false, true_and]
      constructor
      · rintro ⟨-, rfl⟩
        rfl
      · rintro rfl
        exact ⟨hj, rfl⟩
  | nil =>
      obtain ⟨b, hb⟩ : ∃ b, f.blocks[block]? = some b := by
        obtain ⟨i, hi⟩ := Option.isSome_iff_exists.1 hsome
        obtain ⟨b, hb, -⟩ := Option.bind_eq_some_iff.1 hi
        exact ⟨b, hb⟩
      simp only [Steps, hsome, flowSuccessors_of_last hb hsplit, map_eq_ok_iff, List.map_nil,
        List.head?_nil, reduceCtorEq, false_or, true_and, head?_order_eq_some_iff]
      constructor
      · rintro ⟨hq, _, ⟨blocks, hblocks, rfl⟩, hmem⟩
        obtain ⟨k, hk, rfl⟩ := List.mem_map.1 hmem
        exact ⟨⟨blocks, hblocks, hk⟩, rfl, hq⟩
      · rintro ⟨⟨blocks, hblocks, hk⟩, hq, hsome⟩
        refine ⟨hsome, _, ⟨blocks, hblocks, rfl⟩, ?_⟩
        rw [hq]
        exact List.mem_map_of_mem hk

/-- What holds where a block starts and is kept by steps inside the block holds all along it. -/
theorem order_induction {P : Position → Prop} {front back : List Position}
    (h : f.order block = front ++ p :: back) (hhead : ∀ q, (f.order block).head? = some q → P q)
    (hstep : ∀ q ∈ front, ∀ r, f.Steps q r → P q → P r) : P p := by
  induction front using List.reverseRecOn generalizing p back with
  | nil => exact hhead p (by rw [h]; rfl)
  | append_singleton front q ih =>
      rw [List.append_assoc, List.singleton_append] at h
      have hq := ih h fun r hr => hstep r (List.mem_append_left _ hr)
      exact hstep q (by simp) p ((steps_iff h).2 (.inl rfl)) hq

theorem exists_split_order (hp : (f.instruction? p).isSome) :
    ∃ front back, f.order p.block = front ++ p :: back :=
  List.append_of_mem (mem_order.2 ⟨rfl, hp⟩)

theorem entryPoint?_eq_some_iff : f.entryPoint? = some p ∧ (f.instruction? p).isSome ↔
    (f.order 0).head? = some p := by
  rw [head?_order_eq_some_iff, entryPoint?]
  cases hblocks : f.blocks with
  | nil =>
      rw [blockEntry, executionOrder, hblocks]
      simp [instruction?, hblocks]
  | cons b bs =>
      rw [List.isEmpty_cons, if_neg Bool.false_ne_true, Option.some.injEq, eq_comm]

end Function

end SsaIr
