import Mathlib.Data.List.TakeWhile
import SsaIr.Proofs.ExecutionOrder

/-!
# Where both orders agree

Control goes on as the blocks are written exactly in functions whose blocks are straight: no
terminator stands before the last instruction of its block. There the order inside each block is the
written one, so that a block starts with its first instruction. A block that is not straight has a
position at which the two disagree, whatever stands in the other blocks.
-/

namespace SsaIr

namespace Block

variable {b : Block} {i : Nat}

/-- No instruction but the last one is a terminator. -/
def IsStraight (b : Block) : Prop := ∀ i ∈ b.instructions.dropLast, i.isTerminator = false

theorem size_of_split {front back : List Instruction} {t : Instruction}
    (h : b.instructions = front ++ t :: back) : b.size = front.length + 1 + back.length := by
  rw [size, h, List.length_append, List.length_cons]
  omega

theorem IsStraight.isTerminator {j : Instruction} (h : b.IsStraight)
    (hj : b.instructions[i]? = some j) (hi : i + 1 < b.size) : j.isTerminator = false := by
  apply h
  refine List.mem_of_getElem? (i := i) ?_
  rw [List.getElem?_dropLast, if_pos (by rw [size] at hi; omega), hj]

/-- What is behind the last terminator of a straight block is nothing. -/
theorem IsStraight.executionOrder_eq (h : b.IsStraight) :
    b.executionOrder = List.range b.size := by
  rcases b.terminator_cases with hnone | ⟨front, t, back, hsplit, ht, hback⟩
  · exact executionOrder_of_none hnone
  · have hnil : back = [] := by
      by_contra hne
      have hmem : t ∈ b.instructions.dropLast := by
        rw [hsplit, List.dropLast_append_of_ne_nil (List.cons_ne_nil t back),
          List.dropLast_cons_of_ne_nil hne]
        simp
      rw [h t hmem] at ht
      cases ht
    subst hnil
    rw [executionOrder_of_split hsplit ht hback, size_of_split hsplit]
    simp [List.range_succ]

end Block

theorem range_eq_of_lt {i n : Nat} (h : i + 1 < n) :
    List.range n = List.range i ++ i :: (i + 1) :: List.range' (i + 2) (n - (i + 2)) := by
  obtain ⟨k, rfl⟩ : ∃ k, n = i + (k + 2) := ⟨n - (i + 2), by omega⟩
  have hrest : i + (k + 2) - (i + 2) = k := by omega
  rw [hrest, List.range_eq_range', ← List.range'_append_1, List.range_eq_range', Nat.zero_add,
    List.range'_succ, List.range'_succ]

namespace Function

variable {f : Function} {b : Block} {p q : Position} {qs : List Position} {block i : Nat}

theorem instruction?_eq (hb : f.blocks[block]? = some b) :
    f.instruction? ⟨block, i⟩ = b.instructions[i]? := by
  rw [instruction?, hb]
  rfl

theorem successors_of_none (h : f.instruction? p = none) :
    f.successors p = .error (.invalid f.name (.noInstruction p)) := by
  rw [successors, h]

theorem flowSuccessors_of_none (h : f.instruction? p = none) :
    f.flowSuccessors p = .error (.invalid f.name (.noInstruction p)) := by
  have hnot : p.index ∉ f.executionOrder p.block := by
    intro hmem
    rw [mem_executionOrder, h] at hmem
    cases hmem
  have hdrop : (f.executionOrder p.block).dropWhile (· ≠ p.index) = [] := by
    rw [List.dropWhile_eq_nil_iff]
    intro j hj
    simpa using fun heq : j = p.index => hnot (heq ▸ hj)
  rw [flowSuccessors]
  simp only [hdrop]

/-- Inside a block, control as written goes on to the next instruction. -/
theorem successors_of_next {j : Instruction} (hb : f.blocks[block]? = some b)
    (hj : b.instructions[i]? = some j) (hterm : j.isTerminator = false) (hi : i + 1 < b.size) :
    f.successors ⟨block, i⟩ = .ok [⟨block, i + 1⟩] := by
  have hbranch : j.opcode.isBranch = false := by
    apply Bool.eq_false_iff.2
    intro hbranch
    rw [Instruction.isTerminator, Opcode.isTerminator_of_isBranch hbranch] at hterm
    cases hterm
  simp only [successors, instruction?_eq hb, hj, hbranch, hterm, hb, Option.map_some,
    Option.getD_some, hi, Bool.false_eq_true, if_false, if_true]

/-- From a terminator, and from the end of a block, control as written enters blocks at their first
instructions; behind a block without terminator, it enters the next one. -/
theorem start_of_successors {j : Instruction} (hb : f.blocks[block]? = some b)
    (hj : b.instructions[i]? = some j) (h : j.isTerminator = true ∨ b.size ≤ i + 1)
    (hok : f.successors ⟨block, i⟩ = .ok qs) (hq : q ∈ qs) :
    q.index = 0 ∧ (j.isTerminator = false → q.block = block + 1) := by
  simp only [successors, instruction?_eq hb, hj, hb, Option.map_some, Option.getD_some] at hok
  split at hok
  · next hbranch =>
      obtain ⟨label, -, hlabel⟩ := exists_of_mem_result hok hq
      obtain ⟨target, -, rfl⟩ := map_eq_ok_iff.1 hlabel
      refine ⟨rfl, fun hterm => ?_⟩
      rw [Instruction.isTerminator, Opcode.isTerminator_of_isBranch hbranch] at hterm
      cases hterm
  · split at hok
    · cases hok
      cases hq
    · next hterm =>
        have hend : ¬i + 1 < b.size := by
          rcases h with ht | hi
          · exact absurd ht hterm
          · omega
        rw [if_neg hend] at hok
        split at hok
        · cases hok
          obtain rfl := List.mem_singleton.1 hq
          exact ⟨rfl, fun _ => rfl⟩
        · cases hok
          cases hq

section Straight

variable (h : ∀ b ∈ f.blocks, b.IsStraight)
include h

/-- A straight block, also one without instructions and one that does not exist, starts at its first
instruction. -/
theorem blockEntry_of_straight (block : Nat) : f.blockEntry block = ⟨block, 0⟩ := by
  cases hb : f.blocks[block]? with
  | none => simp [blockEntry, executionOrder, hb]
  | some b =>
      rw [blockEntry, executionOrder_eq hb, (h b (List.mem_of_getElem? hb)).executionOrder_eq]
      cases b.size with
      | zero => rfl
      | succ n => simp [List.head?_range]

theorem flowSuccessors_of_straight (p : Position) : f.flowSuccessors p = f.successors p := by
  cases hp : f.instruction? p with
  | none => rw [flowSuccessors_of_none hp, successors_of_none hp]
  | some j =>
      obtain ⟨block, i⟩ := p
      obtain ⟨b, hb, hj⟩ := Option.bind_eq_some_iff.1 hp
      have hstraight := h b (List.mem_of_getElem? hb)
      have horder : f.executionOrder block = List.range b.size := by
        rw [executionOrder_eq hb, hstraight.executionOrder_eq]
      have hlt : i < b.size := (List.getElem?_eq_some_iff.1 hj).1
      by_cases hnext : i + 1 < b.size
      · rw [successors_of_next hb hj (hstraight.isTerminator hj hnext) hnext]
        exact flowSuccessors_of_next (horder.trans (range_eq_of_lt hnext))
      · -- At the end of the block, the blocks gone on to are entered where they start.
        have hlast : f.executionOrder block = List.range i ++ [i] := by
          rw [horder, ← List.range_succ]
          congr 1
          omega
        have hend : b.size ≤ i + 1 := by omega
        simp only [flowSuccessors, dropWhile_executionOrder hlast]
        cases hqs : f.successors ⟨block, i⟩ with
        | error e => rfl
        | ok qs =>
            have hentries : qs.map (fun q => f.blockEntry q.block) = qs := by
              calc qs.map (fun q => f.blockEntry q.block)
                  = qs.map id := List.map_congr_left fun q hq => by
                    rw [blockEntry_of_straight h,
                      ← (start_of_successors hb hj (.inr hend) hqs hq).1]
                    rfl
                _ = qs := List.map_id qs
            rw [Except.map, hentries]

end Straight

section Agree

variable (hblock : f.blocks[block]? = some b)
  (hagree : ∀ i, f.flowSuccessors ⟨block, i⟩ = f.successors ⟨block, i⟩)
include hblock hagree

/-- Where both orders agree, a terminator or the end of the block is not followed by a later
instruction of the block. -/
theorem next_of_agree {j : Nat} {s : Instruction} {before after : List Nat}
    (horder : f.executionOrder block = before ++ i :: j :: after)
    (hs : b.instructions[i]? = some s) (hend : s.isTerminator = true ∨ b.size ≤ i + 1) :
    j = 0 ∧ s.isTerminator = true := by
  have hok := (hagree i).symm.trans (flowSuccessors_of_next horder)
  obtain ⟨hindex, hnext⟩ := start_of_successors hblock hs hend hok List.mem_cons_self
  refine ⟨hindex, ?_⟩
  by_contra hterm
  exact absurd (hnext (Bool.eq_false_iff.2 hterm)) (Nat.ne_of_lt (Nat.lt_succ_self block))

/-- Where both orders agree, nothing stands behind the last terminator: the last instruction would
run right before the terminator, which stands in front of it. -/
theorem nil_of_agree {front back : List Instruction} {t : Instruction}
    (hsplit : b.instructions = front ++ t :: back) (ht : t.isTerminator = true)
    (hback : ∀ i ∈ back, i.isTerminator = false) : back = [] := by
  rcases List.eq_nil_or_concat back with hnil | ⟨behind, s, rfl⟩
  · exact hnil
  · exfalso
    have horder := (executionOrder_eq hblock).trans (b.executionOrder_of_split hsplit ht hback)
    have hsize := b.size_of_split hsplit
    rw [List.concat_eq_append] at hsplit hback horder hsize
    rw [List.length_append, List.length_singleton] at hsize horder
    have hs : b.instructions[front.length + 1 + behind.length]? = some s := by
      rw [hsplit, Nat.add_assoc, List.getElem?_append_right (Nat.le_add_right _ _),
        Nat.add_sub_cancel_left, Nat.add_comm, List.getElem?_cons_succ,
        List.getElem?_concat_length]
    rw [List.range'_concat, Nat.one_mul, ← List.append_assoc, List.append_assoc] at horder
    have hterm := (next_of_agree hblock hagree horder hs (.inr (by omega))).2
    rw [hback s (by simp)] at hterm
    cases hterm

/-- If both orders agree at all positions of a block, it is straight. -/
theorem isStraight_of_agree : b.IsStraight := by
  rcases b.terminator_cases with hnone | ⟨front, t, back, hsplit, ht, hback⟩
  · exact fun i hi => hnone i (List.dropLast_subset _ hi)
  · obtain rfl := nil_of_agree hblock hagree hsplit ht hback
    have horder := (executionOrder_eq hblock).trans (b.executionOrder_of_split hsplit ht hback)
    intro s hs
    rw [hsplit, List.dropLast_concat] at hs
    obtain ⟨i, hi, hget⟩ := List.getElem_of_mem hs
    by_contra hterm
    have hs' : b.instructions[i]? = some s := by
      rw [hsplit, List.getElem?_append_left hi, List.getElem?_eq_getElem hi, hget]
    have hrange : f.executionOrder block = List.range (front.length + 1) := by
      rw [horder, List.range_succ]
      simp
    -- A terminator in front is followed by the instruction behind it, which is not the first.
    have hzero := next_of_agree hblock hagree
      (hrange.trans (range_eq_of_lt (Nat.succ_lt_succ hi))) hs'
      (.inl (Bool.of_not_eq_false hterm))
    exact absurd hzero.1 (Nat.succ_ne_zero i)

end Agree

/-- Control goes on as written, at every position whether there is an instruction or not, exactly if
no block has a terminator before its last instruction. -/
theorem flow_agrees_iff (f : Function) : (∀ p, f.flowSuccessors p = f.successors p) ↔
    ∀ b ∈ f.blocks, ∀ i ∈ b.instructions.dropLast, i.isTerminator = false := by
  constructor
  · intro hagree b hb
    obtain ⟨block, hblock⟩ := List.getElem?_of_mem hb
    exact isStraight_of_agree hblock fun i => hagree ⟨block, i⟩
  · exact flowSuccessors_of_straight

end Function

end SsaIr
