import SsaIr.Proofs.ExecutionOrder
import SsaIr.Proofs.Liveness

/-!
# Liveness from block to block

What is live behind a block is what is live where the blocks start that control enters from it. A
block without instructions has no start to be live at, and liveness does not look behind it: what
is live only where control comes to through such blocks is not live behind the block before them.
-/

namespace SsaIr

namespace Function

variable {f : Function} {p : Position}

theorem exists_flowSuccessors (hp : (f.instruction? p).isSome)
    (h : ∃ blocks, f.successorBlocks p.block = .ok blocks) :
    ∃ targets, f.flowSuccessors p = .ok targets := by
  obtain ⟨front, back, hsplit⟩ := List.append_of_mem (mem_executionOrder.2 hp)
  obtain ⟨blocks, hblocks⟩ := h
  cases back with
  | nil =>
      have hb := List.getElem?_eq_getElem (lt_of_successorBlocks hblocks)
      exact ⟨_, (flowSuccessors_of_last hb hsplit).trans (by rw [hblocks]; rfl)⟩
  | cons j back => exact ⟨_, flowSuccessors_of_next hsplit⟩

/-- Where each block goes on to blocks, control is known to go on from every instruction. -/
theorem exists_instructionGraph
    (h : ∀ block < f.blocks.length, ∃ blocks, f.successorBlocks block = .ok blocks) :
    ∃ g, InstructionGraph.ofFunction f = .ok g := by
  obtain ⟨edges, hedges⟩ : ∃ edges, f.positions.mapM (InstructionGraph.edgesFrom f) = .ok edges := by
    apply exists_mapM_eq_ok_iff.2
    intro p hp
    have hsome := mem_positions.1 hp
    obtain ⟨i, hi⟩ := Option.isSome_iff_exists.1 hsome
    obtain ⟨b, hb, -⟩ := Option.bind_eq_some_iff.1 hi
    obtain ⟨targets, htargets⟩ :=
      exists_flowSuccessors hsome (h p.block (List.getElem?_eq_some_iff.1 hb).1)
    exact ⟨_, map_eq_ok_iff.2 ⟨targets, htargets, rfl⟩⟩
  exact ⟨_, map_eq_ok_iff.2 ⟨edges, hedges, rfl⟩⟩

theorem exists_successorBlocks (hvalid : f.validate = .ok ()) :
    ∀ block < f.blocks.length, ∃ blocks, f.successorBlocks block = .ok blocks := by
  intro block hlt
  rcases validate_eq_ok_iff.1 hvalid with ⟨-, hempty⟩ | ⟨-, hwell⟩
  · rw [hempty] at hlt
    cases hlt
  · exact hwell.exists_successorBlocks hlt

/-- Control can go from one block to another with only the given blocks in between, none of which
has any instructions. -/
def EntersThrough (f : Function) (p : Nat) (passed : List Nat) (q : Nat) : Prop :=
  (p :: passed ++ [q]).IsChain f.Enters ∧ ∀ block ∈ passed, f.executionOrder block = []

end Function

namespace Liveness

variable {f : Function} {l : Liveness} {p q i : Nat} {x : String}

theorem exists_ofFunction
    (h : ∀ block < f.blocks.length, ∃ blocks, f.successorBlocks block = .ok blocks) :
    ∃ l, ofFunction f = .ok l := by
  obtain ⟨g, hg⟩ := f.exists_instructionGraph h
  exact ⟨_, map_eq_ok_iff.2 ⟨g, hg, rfl⟩⟩

/-- What is live behind a block is what is live where the blocks start that control enters. -/
theorem liveAfter_last_iff (hl : ofFunction f = .ok l)
    (hlast : (f.executionOrder p).getLast? = some i) :
    l.LiveAfter ⟨p, i⟩ x ↔ ∃ q, f.Enters p q ∧ l.LiveBefore (f.blockEntry q) x := by
  obtain ⟨front, hfront⟩ := List.getLast?_eq_some_iff.1 hlast
  have hsplit : f.order p = front.map (⟨p, ·⟩) ++ [⟨p, i⟩] := by
    rw [Function.order, hfront, List.map_append]
    rfl
  rw [liveAfter_iff hl]
  constructor
  · rintro ⟨r, hstep, hx⟩
    rcases (Function.steps_iff hsplit).1 hstep with hnext | ⟨-, henters, hhead⟩
    · cases hnext
    · rw [(Function.head?_order_eq_some_iff.1 hhead).1] at hx
      exact ⟨r.block, henters, hx⟩
  · rintro ⟨q, henters, hx⟩
    have hsome := Function.isSome_of_usedAlongPath ((liveBefore_iff_usedAlongPath hl).1 hx)
    have hhead := Function.head?_order_eq_some_iff.2 ⟨rfl, hsome⟩
    exact ⟨f.blockEntry q, (Function.steps_iff hsplit).2 (.inr ⟨rfl, henters, hhead⟩), hx⟩

/-- In a valid function, what is live behind a block is what is live where the blocks start that
control enters from it. So what is live where a block starts is live behind the block that control
comes from, if it comes directly; and in any case, also through blocks without instructions, exactly
if all of it is live where blocks start that control enters directly. -/
theorem liveAfter_along_blocks (hvalid : f.validate = .ok ()) :
    ∃ l, ofFunction f = .ok l ∧ ∀ p i, (f.executionOrder p).getLast? = some i →
      (∀ x, l.LiveAfter ⟨p, i⟩ x ↔ ∃ q, f.Enters p q ∧ l.LiveBefore (f.blockEntry q) x) ∧
      ∀ passed q, f.EntersThrough p passed q →
        (passed = [] → ∀ x, l.LiveBefore (f.blockEntry q) x → l.LiveAfter ⟨p, i⟩ x) ∧
        ((∀ x, l.LiveBefore (f.blockEntry q) x → l.LiveAfter ⟨p, i⟩ x) ↔
          ∀ x, l.LiveBefore (f.blockEntry q) x →
            ∃ r, f.Enters p r ∧ l.LiveBefore (f.blockEntry r) x) := by
  obtain ⟨l, hl⟩ := exists_ofFunction (f.exists_successorBlocks hvalid)
  refine ⟨l, hl, fun p i hlast => ?_⟩
  have hiff : ∀ x, l.LiveAfter ⟨p, i⟩ x ↔
      ∃ q, f.Enters p q ∧ l.LiveBefore (f.blockEntry q) x := fun x => liveAfter_last_iff hl hlast
  refine ⟨hiff, fun passed q hthrough => ⟨?_, forall₂_congr fun x _ => hiff x⟩⟩
  rintro rfl x hx
  have henters : f.Enters p q := by simpa using hthrough.1
  exact (hiff x).2 ⟨q, henters, hx⟩

/-- Returns its argument behind a block without instructions. -/
def relay (entry : Instruction) : Function where
  name := "relay"
  returnType := "i32"
  parameters := [{ name := some "c", type := "i1" }, { name := some "a", type := "i32" }]
  blocks :=
    [{ label := "entry", instructions := [entry] },
     { label := "gap" },
     { label := "exit"
       instructions := [{ opcode := .ret, type := some "i32", operands := [.argument "a" "i32"] }] }]

/-- Control also enters the last block directly. -/
def relayAround : Function := relay (.condBranch (.argument "c" "i1") "gap" "exit")

theorem liveAfter_along_blocks_relayAround : relayAround.validate = .ok () ∧
    relayAround.EntersThrough 0 [1] 2 ∧
      ∃ l, ofFunction relayAround = .ok l ∧ l.LiveBefore ⟨2, 0⟩ "a" ∧ l.LiveAfter ⟨0, 0⟩ "a" := by
  have hvalid : relayAround.validate = .ok () := rfl
  have hgap : relayAround.Enters 0 1 := ⟨[1, 2], rfl, by decide⟩
  have hexit : relayAround.Enters 0 2 := ⟨[1, 2], rfl, by decide⟩
  have hnext : relayAround.Enters 1 2 := ⟨[2], rfl, by decide⟩
  have hthrough : relayAround.EntersThrough 0 [1] 2 := ⟨by simp [hgap, hnext], by decide⟩
  obtain ⟨l, hl, hall⟩ := liveAfter_along_blocks hvalid
  obtain ⟨-, hchain⟩ := hall 0 0 rfl
  obtain ⟨-, hthroughGap⟩ := hchain [1] 2 hthrough
  have huse : l.LiveBefore ⟨2, 0⟩ "a" :=
    (liveBefore_iff_usedAlongPath hl).2 (.use (by decide))
  refine ⟨hvalid, hthrough, l, hl, huse, ?_⟩
  exact hthroughGap.2 (fun x hx => ⟨2, hexit, hx⟩) "a" huse

/-- Control enters the last block only through the block without instructions. -/
def relayThrough : Function := relay (.branch "gap")

theorem not_liveAfter_relayThrough : relayThrough.validate = .ok () ∧
    relayThrough.EntersThrough 0 [1] 2 ∧ (relayThrough.executionOrder 0).getLast? = some 0 ∧
      ∃ l, ofFunction relayThrough = .ok l ∧
        l.LiveBefore (relayThrough.blockEntry 2) "a" ∧ ¬l.LiveAfter ⟨0, 0⟩ "a" := by
  have hvalid : relayThrough.validate = .ok () := rfl
  have hgap : relayThrough.Enters 0 1 := ⟨[1], rfl, by decide⟩
  have hnext : relayThrough.Enters 1 2 := ⟨[2], rfl, by decide⟩
  obtain ⟨l, hl⟩ := exists_ofFunction (relayThrough.exists_successorBlocks hvalid)
  refine ⟨hvalid, ⟨by simp [hgap, hnext], by decide⟩, rfl, l, hl, ?_, ?_⟩
  · exact (liveBefore_iff_usedAlongPath hl).2 (.use (by decide))
  · intro h
    obtain ⟨q, ⟨targets, htargets, hq⟩, hlive⟩ := (liveAfter_last_iff hl rfl).1 h
    cases htargets
    obtain rfl := List.mem_singleton.1 hq
    have hsome := Function.isSome_of_usedAlongPath ((liveBefore_iff_usedAlongPath hl).1 hlive)
    exact absurd hsome (by decide)

end Liveness

end SsaIr
