import SsaIr.Proofs.Graph.Blocks
import SsaIr.Proofs.Instruction.Branch

/-!
# The two sides of a branch

A branch with two targets keeps the false side first, and all else has the true side first: its text,
its targets, the positions and the blocks that control goes on to, and the edges of the block graph.
This holds of branches that are made and of branches that are read alike.
-/

namespace SsaIr

open Text

variable {f : Function} {p : Position} {t : Instruction} {T F : String}

namespace Function

/-- The last terminator of a block is the instruction at this position. -/
def EndsWith (f : Function) (p : Position) (t : Instruction) : Prop :=
  ∃ b, f.blocks[p.block]? = some b ∧ b.terminatorIndex? = some p.index ∧
    b.instructions[p.index]? = some t

/-- Control goes from the end of a block to the first block with label `T` if a condition holds, and
to the first block with label `F` if not. -/
structure Forks (f : Function) (p : Position) (T F : String) (whenTrue whenFalse : Nat) :
    Prop where
  whenTrue_eq : f.blockIndex? T = some whenTrue
  whenFalse_eq : f.blockIndex? F = some whenFalse
  successors_eq : f.successors p = .ok [⟨whenTrue, 0⟩, ⟨whenFalse, 0⟩]
  successorBlocks_eq : f.successorBlocks p.block = .ok [whenTrue, whenFalse]
  edges_eq : ∀ g, BlockGraph.ofFunction f = .ok g → g.edges.filter (·.source = p.block) =
    [⟨p.block, whenTrue, .whenTrue⟩, ⟨p.block, whenFalse, .whenFalse⟩]

/-- A block that ends with a branch with two targets goes on to these, in order. -/
theorem EndsWith.exists_forks (h : f.EndsWith p t) (ht : t.TwoWay T F) (hT : T ∈ f.labels)
    (hF : F ∈ f.labels) : ∃ whenTrue whenFalse, f.Forks p T F whenTrue whenFalse := by
  obtain ⟨b, hb, hindex, hinstruction⟩ := h
  obtain ⟨whenTrue, hwhenTrue⟩ := exists_blockIndex?_iff.2 hT
  obtain ⟨whenFalse, hwhenFalse⟩ := exists_blockIndex?_iff.2 hF
  have hterminator : b.terminator? = some t := by
    rw [Block.terminator?, hindex, Option.bind_some, hinstruction]
  have hinstruction' : f.instruction? p = some t := by
    rw [instruction?, hb, Option.bind_some, hinstruction]
  have htargets := ht.branchTargets_eq
  have hresolve := resolve_eq_ok_iff.2 hwhenTrue
  have hresolve' := resolve_eq_ok_iff.2 hwhenFalse
  have hblocks : f.successorBlocks p.block = .ok [whenTrue, whenFalse] := by
    simp only [successorBlocks, hb, hterminator, ht.isBranch, if_true, htargets]
    exact mapM_eq_ok_iff.2 (.cons hresolve (.cons hresolve' .nil))
  refine ⟨whenTrue, whenFalse, hwhenTrue, hwhenFalse, ?_, hblocks, ?_⟩
  -- The instruction and the block resolve the same labels, and edges are marked in that order.
  · simp only [successors, hinstruction', ht.isBranch, if_true, htargets]
    exact mapM_eq_ok_iff.2 (.cons (map_eq_ok_iff.2 ⟨whenTrue, hresolve, rfl⟩)
      (.cons (map_eq_ok_iff.2 ⟨whenFalse, hresolve', rfl⟩) .nil))
  · intro g hg
    have hkinds : BlockGraph.edgeKinds b = [.whenTrue, .whenFalse] := by
      simp [BlockGraph.edgeKinds, hterminator, htargets]
    have hedges := BlockGraph.edgesFrom_eq_filter hg hb
    rw [BlockGraph.edgesFrom, hblocks, hkinds] at hedges
    exact (Except.ok.inj hedges).symm

/-- The targets of a branch are in the same order everywhere. Where a block ends with a branch to `T`
and `F`, made so or read from a line with `T` in front, its targets are `T` and `F`, its text ends in
`T` and `F`, and control goes on to `T` and `F`, be they one block or two. And what is read from such
a line without a result is what is made of the values read: of the condition, if it has the type of
the line, or of the two values to compare. -/
theorem branch_sides_agree :
    (∀ {f : Function} {p t T F}, f.EndsWith p t → t.TwoWay T F → T ∈ f.labels → F ∈ f.labels →
      t.branchTargets = [T, F] ∧
        (∃ front, t.text = front ++ ", label %" ++ T ++ ", label %" ++ F) ∧
          ∃ whenTrue whenFalse, f.Forks p T F whenTrue whenFalse) ∧
    (∀ {scope type condition T F i}, isIdentifier T.toList = true → isIdentifier F.toList = true →
      Instruction.parse scope (Instruction.brText type condition T F).toList = .ok i →
        i.type = some type → ∃ v, Value.parse scope condition.toList type = .ok v ∧
          (v.type = type → i = .condBranch v T F)) ∧
    ∀ {scope predicate type lhs rhs T F i}, isIdentifier T.toList = true →
      isIdentifier F.toList = true →
      Instruction.parse scope (Instruction.bricmpText predicate type lhs rhs T F).toList = .ok i →
        i.type = some type → ∃ vl vr, i = .compareBranch predicate type vl vr T F ∧
          (Piece lhs.toList → Piece rhs.toList → Value.parse scope lhs.toList type = .ok vl ∧
            Value.parse scope rhs.toList type = .ok vr) := by
  refine ⟨?_, ?_, ?_⟩
  · intro f p t T F hend ht hT hF
    exact ⟨ht.branchTargets_eq, ht.exists_text_eq, hend.exists_forks ht hT hF⟩
  · intro scope type condition T F i hT hF h htype
    have h : Instruction.parse scope
        (Instruction.named none (Instruction.brText type condition T F)).toList = .ok i := h
    obtain ⟨v, hv, heq⟩ := Instruction.eq_condBranch_of_parse hT hF (by simp) h htype
    refine ⟨v, hv, ?_⟩
    rintro rfl
    exact heq
  · intro scope predicate type lhs rhs T F i hT hF h htype
    have h : Instruction.parse scope
        (Instruction.named none (Instruction.bricmpText predicate type lhs rhs T F)).toList =
          .ok i := h
    obtain ⟨vl, vr, hvalues, heq⟩ :=
      Instruction.eq_compareBranch_of_parse hT hF (by simp) h htype
    exact ⟨vl, vr, heq, hvalues⟩

/-- A block that goes on to another one either way, and that other one, which goes on or back. -/
def forked : Function where
  name := "forked"
  returnType := "void"
  parameters := [{ name := some "c", type := "i1" }]
  blocks :=
    [{ label := "entry", instructions := [.condBranch (.argument "c" "i1") "loop" "loop"] },
     { label := "loop"
       instructions := [.compareBranch .eq "i32" (.temp "x" "i32") (.int 1 "i32") "entry" "loop",
         .copy "x" none (.int 1 "i32")] }]

theorem branch_sides_agree_forked :
    forked.Forks ⟨0, 0⟩ "loop" "loop" 1 1 ∧ forked.Forks ⟨1, 0⟩ "entry" "loop" 0 1 ∧
    (∃ v, Value.parse ["c"] "%c".toList "i1" = .ok v ∧ (v.type = "i1" →
      Instruction.condBranch (.argument "c" "i1") "loop" "loop" = .condBranch v "loop" "loop")) ∧
    ∃ vl vr, Instruction.compareBranch .eq "i32" (.temp "x" "i32") (.int 1 "i32") "entry" "loop" =
        .compareBranch .eq "i32" vl vr "entry" "loop" ∧
      Value.parse ["c"] "%x".toList "i32" = .ok vl ∧ Value.parse ["c"] "1".toList "i32" = .ok vr := by
  obtain ⟨hsides, hbr, hbricmp⟩ := branch_sides_agree
  have hentry : Instruction.parse ["c"]
      (Instruction.named none (Instruction.brText "i1" "%c" "loop" "loop")).toList =
        .ok (.condBranch (.argument "c" "i1") "loop" "loop") := by decide +kernel
  have hloop : Instruction.parse ["c"]
      (Instruction.named none (Instruction.bricmpText .eq "i32" "%x" "1" "entry" "loop")).toList =
        .ok (.compareBranch .eq "i32" (.temp "x" "i32") (.int 1 "i32") "entry" "loop") := by
    decide +kernel
  have hname : isIdentifier "loop".toList = true ∧ isIdentifier "entry".toList = true := by decide
  obtain ⟨-, -, n, m, hforks⟩ := hsides (f := forked) (p := ⟨0, 0⟩) ⟨_, rfl, rfl, rfl⟩
    (.br hname.1 hname.1 (by simp) hentry rfl none) (by decide) (by decide)
  obtain ⟨-, -, n', m', hforks'⟩ := hsides (f := forked) (p := ⟨1, 0⟩) ⟨_, rfl, rfl, rfl⟩
    (.bricmp hname.2 hname.1 (by simp) hloop rfl none) (by decide) (by decide)
  obtain rfl : 1 = n := Option.some.inj hforks.whenTrue_eq
  obtain rfl : 1 = m := Option.some.inj hforks.whenFalse_eq
  obtain rfl : 0 = n' := Option.some.inj hforks'.whenTrue_eq
  obtain rfl : 1 = m' := Option.some.inj hforks'.whenFalse_eq
  obtain ⟨vl, vr, hloop_eq, hvalues⟩ := hbricmp hname.2 hname.1 hloop rfl
  exact ⟨hforks, hforks', hbr hname.1 hname.1 hentry rfl, vl, vr, hloop_eq,
    hvalues (by decide) (by decide)⟩

end Function

end SsaIr
