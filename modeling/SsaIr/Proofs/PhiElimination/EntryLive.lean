import SsaIr.Proofs.Liveness.Blocks
import SsaIr.Proofs.PhiElimination.InPlace

/-!
# Names live at the entry

Where every name is defined on the way to where it is read, only parameters are live at the entry
once phis are eliminated: a path of the new function on which a name is not defined goes through
the same blocks as a path of the old one on which it is not defined either, since the definition at
the head of a block has moved into every block that control can come from.
-/

namespace SsaIr

theorem split_of_append_eq {α : Type} {as bs front back : List α} {a : α}
    (h : as ++ bs = front ++ a :: back) : (∃ rest, as = front ++ a :: rest) ∨
      ∃ rest, front = as ++ rest ∧ bs = rest ++ a :: back := by
  rcases List.append_eq_append_iff.1 h with ⟨rest, hfront, hbs⟩ | ⟨rest, has, hback⟩
  · exact .inr ⟨rest, hfront, hbs⟩
  · cases rest with
    | nil => exact .inr ⟨[], by simpa using has.symm, hback.symm⟩
    | cons c rest =>
        cases hback
        exact .inl ⟨rest, has⟩

theorem exists_split_of_filter_eq {α : Type} {p : α → Bool} {l front back : List α} {a : α}
    (h : l.filter p = front ++ a :: back) :
    ∃ ahead behind, l = ahead ++ a :: behind ∧ ahead.filter p = front := by
  obtain ⟨ahead, rest, rfl, rfl, hrest⟩ := List.filter_eq_append_iff.1 h
  obtain ⟨skipped, behind, rfl, hskipped, -, -⟩ := List.filter_eq_cons_iff.1 hrest
  refine ⟨ahead ++ skipped, behind, by simp, ?_⟩
  rw [List.filter_append, List.filter_eq_nil_iff.2 hskipped, List.append_nil]

namespace Function

variable {f : Function} {b : Block} {p q r : Position} {x : String} {block next : Nat}

/-- On every path from the start to the position, the name is defined before it is reached. -/
def DefinedBefore (f : Function) (x : String) (p : Position) : Prop :=
  ∀ passed, (passed ++ [p]).head? = f.entryPoint? → (passed ++ [p]).IsChain f.Steps →
    ∃ q ∈ passed, x ∈ f.definesAt q

/-- On every path from the start to the position, the name is defined there or before. -/
def DefinedThrough (f : Function) (x : String) (p : Position) : Prop :=
  ∀ passed, (passed ++ [p]).head? = f.entryPoint? → (passed ++ [p]).IsChain f.Steps →
    ∃ q ∈ passed ++ [p], x ∈ f.definesAt q

/-- What single assignment form asks for beyond validity: every name is defined on all paths to
where it is read, which for an operand of a phi is the end of the block that control comes from.
Where in their blocks the phis stand does not matter. -/
structure DefinedBeforeUse (f : Function) : Prop where
  blocks_nonempty : ∀ b ∈ f.blocks, b.instructions ≠ []
  terminators_unnamed : ∀ i ∈ f.instructions, i.isTerminator = true → i.result = none
  phis_named : ∀ i ∈ f.instructions, i.isPhi = true → i.result.isSome = true
  incoming_predecessors : ∀ {q target ps}, f.blocks[q]? = some target →
    f.predecessorBlocks q = .ok ps → ∀ phi ∈ target.instructions, phi.isPhi = true →
      ∀ label, label ∈ phi.incoming.map Prod.snd ↔ ∃ p ∈ ps, f.labels[p]? = some label
  entry_without_phis : ∀ b, f.blocks[0]? = some b → ∀ i ∈ b.instructions, i.isPhi = false
  uses_defined : ∀ p i, f.instruction? p = some i → i.isPhi = false → ∀ x ∈ i.uses,
    f.isParameter x = true ∨ f.DefinedBefore x p
  incoming_defined : ∀ phi ∈ f.instructions, phi.isPhi = true → ∀ v label,
    (v, label) ∈ phi.incoming → ∀ x, v.localName? = some x → ∀ block last,
      f.labels[block]? = some label → (f.executionOrder block).getLast? = some last →
        f.isParameter x = true ∨ f.DefinedThrough x ⟨block, last⟩

/-- A path leads to the instruction from the start and does not define the name before. -/
inductive Undefined (f : Function) (x : String) : Position → Prop
  | start {p : Position} : (f.order 0).head? = some p → Undefined f x p
  | step {p q : Position} : Undefined f x p → x ∉ f.definesAt p → f.Steps p q → Undefined f x q

theorem Undefined.exists_path (h : f.Undefined x p) : ∃ passed,
    (passed ++ [p]).head? = f.entryPoint? ∧ (passed ++ [p]).IsChain f.Steps ∧
      ∀ q ∈ passed, x ∉ f.definesAt q := by
  induction h with
  | start hp => exact ⟨[], (entryPoint?_eq_some_iff.2 hp).1.symm, List.isChain_singleton _, by simp⟩
  | @step p q _ hx hstep ih =>
      obtain ⟨passed, hhead, hchain, hall⟩ := ih
      refine ⟨passed ++ [p], ?_, ?_, ?_⟩
      · rw [← hhead]
        cases passed <;> rfl
      · apply hchain.append (List.isChain_singleton q)
        intro r hr s hs
        rw [List.getLast?_concat, Option.mem_some_iff] at hr
        cases hs
        rwa [← hr]
      · intro r hr
        rcases List.mem_append.1 hr with hr | hr
        · exact hall r hr
        · rwa [List.mem_singleton.1 hr]

theorem undefined_of_path {passed : List Position} (hp : (f.instruction? p).isSome)
    (hhead : (passed ++ [p]).head? = f.entryPoint?) (hchain : (passed ++ [p]).IsChain f.Steps)
    (hall : ∀ q ∈ passed, x ∉ f.definesAt q) : f.Undefined x p := by
  induction passed using List.reverseRecOn generalizing p with
  | nil => exact .start (entryPoint?_eq_some_iff.1 ⟨hhead.symm, hp⟩)
  | append_singleton passed q ih =>
      obtain ⟨hfront, -, hlast⟩ := List.isChain_append.1 hchain
      have hstep : f.Steps q p := hlast q List.getLast?_concat p rfl
      have hhead' : (passed ++ [q]).head? = f.entryPoint? := by
        rw [← hhead]
        cases passed <;> rfl
      have hq := ih hstep.1 hhead' hfront fun r hr => hall r (List.mem_append_left _ hr)
      exact hq.step (hall q (by simp)) hstep

theorem definedBefore_iff (hp : (f.instruction? p).isSome) :
    f.DefinedBefore x p ↔ ¬f.Undefined x p := by
  constructor
  · intro hdef hundef
    obtain ⟨passed, hhead, hchain, hall⟩ := hundef.exists_path
    obtain ⟨q, hq, hx⟩ := hdef passed hhead hchain
    exact hall q hq hx
  · intro hundef passed hhead hchain
    by_contra! hall
    exact hundef (undefined_of_path hp hhead hchain hall)

theorem definedThrough_iff (hp : (f.instruction? p).isSome) :
    f.DefinedThrough x p ↔ (f.Undefined x p → x ∈ f.definesAt p) := by
  constructor
  · intro hdef hundef
    obtain ⟨passed, hhead, hchain, hall⟩ := hundef.exists_path
    obtain ⟨q, hq, hx⟩ := hdef passed hhead hchain
    rcases List.mem_append.1 hq with hq | hq
    · exact absurd hx (hall q hq)
    · rwa [← List.mem_singleton.1 hq]
  · intro hundef passed hhead hchain
    by_contra! hall
    have hx := hundef (undefined_of_path hp hhead hchain fun q hq =>
      hall q (List.mem_append_left _ hq))
    exact hall p (by simp) hx

/-- A name that is live where it is undefined is used somewhere where it is undefined. -/
theorem Undefined.exists_use (h : f.Undefined x p) (hlive : f.UsedAlongPath x p) :
    ∃ q, f.Undefined x q ∧ x ∈ f.usesAt q := by
  refine hlive.rec_backwards (P := fun p => f.Undefined x p → ∃ q, f.Undefined x q ∧
    x ∈ f.usesAt q) ?_ ?_ h
  · exact fun p hu h => ⟨p, h, hu⟩
  · exact fun p q hstep hx ih h => ih (h.step hx hstep)

/-! ## Blocks without their phis -/

theorem not_isTerminator_of_mem_copiesTo {c : Instruction} {label : String}
    (h : c ∈ f.copiesTo label) : c.isTerminator = false := by
  obtain ⟨-, -, phi, name, v, -, rfl⟩ := mem_copiesTo_iff.1 h
  rfl

/-- A block without phis has the last terminator that it had, and the copies behind the others. -/
theorem terminator?_and_body_withoutPhis (f : Function) (b : Block) :
    (f.withoutPhis b).terminator? = b.terminator? ∧
      (f.withoutPhis b).body = b.body.filter (!·.isPhi) ++ f.copiesTo b.label := by
  rcases b.terminator_cases with hnone | ⟨front, t, back, hsplit, ht, hback⟩
  · have hnone' : ∀ i ∈ (f.withoutPhis b).instructions, i.isTerminator = false := by
      intro i hi
      rcases List.mem_append.1 hi with hi | hi
      · exact hnone i (List.mem_filter.1 hi).1
      · exact not_isTerminator_of_mem_copiesTo hi
    rw [Block.terminator?_of_none hnone, Block.terminator?_of_none hnone',
      Block.body_of_none hnone, Block.body_of_none hnone']
    exact ⟨rfl, rfl⟩
  · have hsplit' : (f.withoutPhis b).instructions = front.filter (!·.isPhi) ++
        t :: (back.filter (!·.isPhi) ++ f.copiesTo b.label) := by
      rw [withoutPhis, hsplit, List.filter_append, List.filter_cons_of_pos
        (by rw [Instruction.isPhi_of_isTerminator ht]; rfl), List.append_assoc, List.cons_append]
    have hback' : ∀ i ∈ back.filter (!·.isPhi) ++ f.copiesTo b.label, i.isTerminator = false := by
      intro i hi
      rcases List.mem_append.1 hi with hi | hi
      · exact hback i (List.mem_filter.1 hi).1
      · exact not_isTerminator_of_mem_copiesTo hi
    rw [Block.terminator?_of_split hsplit ht hback, Block.terminator?_of_split hsplit' ht hback',
      Block.body_of_split hsplit ht hback, Block.body_of_split hsplit' ht hback',
      List.filter_append, List.append_assoc]
    exact ⟨rfl, rfl⟩

theorem run_withoutPhis (f : Function) (b : Block) : (f.withoutPhis b).run =
    b.body.filter (!·.isPhi) ++ f.copiesTo b.label ++ b.terminator?.toList := by
  obtain ⟨hterm, hbody⟩ := f.terminator?_and_body_withoutPhis b
  rw [Block.run, hterm, hbody]

theorem enters_withCopies : f.withCopies.Enters block next ↔ f.Enters block next := by
  rw [Enters, Enters, f.sameOutline_withCopies.successorBlocks]

/-! ## Paths of the new function -/

theorem forall_not_mem_definesAt_iff {ps : List Position} {is : List Instruction}
    (h : ps.map f.instruction? = is.map some) :
    (∀ q ∈ ps, x ∉ f.definesAt q) ↔ ∀ i ∈ is, i.result ≠ some x := by
  constructor
  · intro hall i hi hx
    have hmem : some i ∈ ps.map f.instruction? := h ▸ List.mem_map_of_mem hi
    obtain ⟨q, hq, hqi⟩ := List.mem_map.1 hmem
    exact hall q hq (mem_definesAt.2 ⟨i, hqi, Instruction.mem_defines.2 hx⟩)
  · intro hall q hq hx
    obtain ⟨i, hi, hx⟩ := mem_definesAt.1 hx
    have hmem : some i ∈ is.map some := h ▸ hi ▸ List.mem_map_of_mem hq
    obtain ⟨j, hj, hij⟩ := List.mem_map.1 hmem
    cases hij
    exact hall i hj (Instruction.mem_defines.1 hx)

/-- A name that is undefined where a block starts is undefined behind instructions of the block that
do not define it. -/
theorem exists_undefined_of_run {before after : List Instruction} {i : Instruction}
    (hb : f.blocks[block]? = some b) (hrun : b.run = before ++ i :: after)
    (hhead : ∀ q, (f.order block).head? = some q → f.Undefined x q)
    (hbefore : ∀ j ∈ before, j.result ≠ some x) :
    ∃ front p back, f.order block = front ++ p :: back ∧ f.instruction? p = some i ∧
      back.map f.instruction? = after.map some ∧ f.Undefined x p := by
  obtain ⟨front, p, back, hsplit, hfront, hp, hback⟩ := exists_order_of_run hb hrun
  refine ⟨front, p, back, hsplit, hp, hback, order_induction hsplit hhead ?_⟩
  intro q hq r hstep hundef
  exact hundef.step ((forall_not_mem_definesAt_iff hfront).2 hbefore q hq) hstep

/-- Where a path of the new function has come to without defining the name: in the old function the
name is undefined where the block starts, its phis do not define it, and none of the instructions
that have run in the block does. -/
structure Traced (f : Function) (x : String) (p : Position) : Prop where
  head : ∀ q, (f.order p.block).head? = some q → f.Undefined x q
  phis : ∀ b, f.blocks[p.block]? = some b → ∀ i ∈ b.instructions, i.isPhi = true →
    i.result ≠ some x
  before : ∃ front back, f.withCopies.order p.block = front ++ p :: back ∧
    ∀ q ∈ front, x ∉ f.withCopies.definesAt q

theorem getElem?_withCopies (hb : f.blocks[block]? = some b) :
    f.withCopies.blocks[block]? = some (f.withoutPhis b) := by
  rw [withCopies, List.getElem?_map, hb]
  rfl

/-- A name that is undefined where a block starts, and that nothing in the block defines, is
undefined where the block ends. -/
theorem exists_undefined_last (hb : f.blocks[block]? = some b) (hne : b.instructions ≠ [])
    (hhead : ∀ q, (f.order block).head? = some q → f.Undefined x q)
    (hnone : ∀ i ∈ b.instructions, i.result ≠ some x) :
    ∃ front last, f.order block = front ++ [last] ∧ f.Undefined x last ∧ x ∉ f.definesAt last := by
  have hrun : b.run ≠ [] := by
    obtain ⟨i, hi⟩ := List.exists_mem_of_ne_nil _ hne
    exact List.ne_nil_of_mem (Block.mem_run.2 hi)
  obtain ⟨before, i, hsplit⟩ := (List.eq_nil_or_concat b.run).resolve_left hrun
  rw [List.concat_eq_append] at hsplit
  obtain ⟨front, last, back, horder, hi, hback, hundef⟩ :=
    exists_undefined_of_run hb hsplit hhead fun j hj =>
      hnone j (Block.mem_run.1 (hsplit ▸ List.mem_append_left _ hj))
  obtain rfl := List.map_eq_nil_iff.1 hback
  refine ⟨front, last, horder, hundef, fun hx => ?_⟩
  obtain ⟨j, hj, hdefines⟩ := mem_definesAt.1 hx
  cases hi.symm.trans hj
  exact hnone i (Block.mem_run.1 (hsplit ▸ by simp)) (Instruction.mem_defines.1 hdefines)

/-- What is no phi of a block stays in it. -/
theorem forall_result_ne_of_withoutPhis
    (hphis : ∀ i ∈ b.instructions, i.isPhi = true → i.result ≠ some x)
    (hother : ∀ i ∈ b.instructions.filter (!·.isPhi), i.result ≠ some x) :
    ∀ i ∈ b.instructions, i.result ≠ some x := by
  intro i hi
  cases hphi : i.isPhi with
  | true => exact hphis i hi hphi
  | false => exact hother i (List.mem_filter.2 ⟨hi, by rw [hphi]; rfl⟩)

section

variable (h : f.DefinedBeforeUse)
include h

/-- A name that comes undefined through a block and its copies is undefined where control goes on,
and is no result of a phi there, since that phi would have a copy behind the block. -/
theorem DefinedBeforeUse.enter (hwell : f.WellFormed) (hb : f.blocks[block]? = some b)
    (hhead : ∀ q, (f.order block).head? = some q → f.Undefined x q)
    (hphis : ∀ i ∈ b.instructions, i.isPhi = true → i.result ≠ some x)
    (hnew : ∀ i ∈ (f.withoutPhis b).instructions, i.result ≠ some x)
    (henters : f.Enters block next) :
    (∀ q, (f.order next).head? = some q → f.Undefined x q) ∧
      ∀ target, f.blocks[next]? = some target → ∀ i ∈ target.instructions, i.isPhi = true →
        i.result ≠ some x := by
  constructor
  · intro q hq
    have hnone := forall_result_ne_of_withoutPhis hphis fun i hi =>
      hnew i (List.mem_append_left _ hi)
    obtain ⟨front, last, horder, hundef, hx⟩ :=
      exists_undefined_last hb (h.blocks_nonempty b (List.mem_of_getElem? hb)) hhead hnone
    obtain ⟨rfl, -⟩ := mem_order.1 (List.mem_of_mem_head? hq)
    exact hundef.step hx ((steps_iff horder).2 (.inr ⟨rfl, henters, hq⟩))
  · intro target ht phi hphi hisPhi hresult
    obtain ⟨ps, hps⟩ := hwell.exists_predecessorBlocks next
    have hlabel : f.labels[block]? = some b.label := by rw [labels, List.getElem?_map, hb]; rfl
    have hlisted := (h.incoming_predecessors ht hps phi hphi hisPhi b.label).2
      ⟨block, (mem_predecessorBlocks_iff hps).2 henters, hlabel⟩
    obtain ⟨⟨v, -⟩, hpair, rfl⟩ := List.mem_map.1 hlisted
    have hcopy := mem_copiesTo_iff.2
      ⟨target, List.mem_of_getElem? ht, phi, x, v, ⟨hphi, hisPhi, hresult, hpair⟩, rfl⟩
    exact hnew _ (List.mem_append_right _ hcopy) rfl

theorem DefinedBeforeUse.traced_step (hwell : f.WellFormed) (hp : f.Traced x p)
    (hx : x ∉ f.withCopies.definesAt p) (hstep : f.withCopies.Steps p q) : f.Traced x q := by
  obtain ⟨front, back, hsplit, hfront⟩ := hp.before
  have hpassed : ∀ r ∈ front ++ [p], x ∉ f.withCopies.definesAt r := by
    intro r hr
    rcases List.mem_append.1 hr with hr | hr
    · exact hfront r hr
    · rwa [List.mem_singleton.1 hr]
  rcases (steps_iff hsplit).1 hstep with hnext | ⟨rfl, henters, hhead⟩
  · obtain ⟨back, rfl⟩ := List.head?_eq_some_iff.1 hnext
    have hblock : q.block = p.block := (mem_order.1 (by rw [hsplit]; simp)).1
    refine ⟨by rw [hblock]; exact hp.head, by rw [hblock]; exact hp.phis,
      front ++ [p], back, ?_, hpassed⟩
    rw [hblock, hsplit]
    simp
  · rw [enters_withCopies] at henters
    obtain ⟨targets, htargets, -⟩ := id henters
    have hb := List.getElem?_eq_getElem (lt_of_successorBlocks htargets)
    have hrun := map_instruction?_order (getElem?_withCopies hb)
    rw [hsplit] at hrun
    have hnew := (forall_not_mem_definesAt_iff hrun).1 hpassed
    obtain ⟨hundef, hphis⟩ := h.enter hwell hb hp.head (hp.phis _ hb)
      (fun i hi => hnew i (Block.mem_run.2 hi)) henters
    obtain ⟨back, hback⟩ := List.head?_eq_some_iff.1 hhead
    exact ⟨hundef, hphis, [], back, hback, by simp⟩

/-- A path of the new function that has not defined a name runs along one of the old function that
has not either. -/
theorem DefinedBeforeUse.traced_of_undefined (hwell : f.WellFormed)
    (hp : f.withCopies.Undefined x p) : f.Traced x p := by
  induction hp with
  | start hp =>
      obtain ⟨back, hback⟩ := List.head?_eq_some_iff.1 hp
      have hblock := (mem_order.1 (List.mem_of_mem_head? hp)).1
      refine ⟨?_, ?_, [], back, ?_, by simp⟩
      · rw [hblock]
        exact fun q hq => .start hq
      · rw [hblock]
        intro b hb i hi hphi
        rw [h.entry_without_phis b hb i hi] at hphi
        cases hphi
      · rw [hblock]
        exact hback
  | step _ hx hstep ih => exact h.traced_step hwell ih hx hstep

/-- An instruction of a block that uses a name which nothing before it has defined uses a
parameter. -/
theorem DefinedBeforeUse.isParameter_of_use {before after : List Instruction} {i : Instruction}
    (hb : f.blocks[block]? = some b) (hrun : b.run = before ++ i :: after)
    (hhead : ∀ q, (f.order block).head? = some q → f.Undefined x q)
    (hbefore : ∀ j ∈ before, j.result ≠ some x) (hphi : i.isPhi = false) (hx : x ∈ i.uses) :
    f.isParameter x = true := by
  obtain ⟨-, p, -, -, hi, -, hundef⟩ := exists_undefined_of_run hb hrun hhead hbefore
  refine (h.uses_defined p i hi hphi x hx).resolve_right fun hdef => ?_
  exact (definedBefore_iff (by rw [hi]; rfl)).1 hdef hundef

/-- A copy behind a block that uses a name which nothing in the block has defined uses a
parameter. -/
theorem DefinedBeforeUse.isParameter_of_copy {c : Instruction} (hb : f.blocks[block]? = some b)
    (hc : c ∈ f.copiesTo b.label) (hhead : ∀ q, (f.order block).head? = some q → f.Undefined x q)
    (hbody : ∀ j ∈ b.body, j.result ≠ some x) (hx : x ∈ c.uses) : f.isParameter x = true := by
  have hmem := List.mem_of_getElem? hb
  have hnone : ∀ i ∈ b.instructions, i.result ≠ some x := by
    intro i hi
    rcases List.mem_append.1 (Block.mem_run.2 hi) with hi | hi
    · exact hbody i hi
    · have ht := Option.mem_toList.1 hi
      rw [h.terminators_unnamed i (mem_instructions_of_block hmem (Block.mem_of_terminator? ht))
        (Block.isTerminator_of_terminator? ht)]
      exact Option.some_ne_none x |>.symm
  obtain ⟨front, last, horder, hundef, hlast⟩ :=
    exists_undefined_last hb (h.blocks_nonempty b hmem) hhead hnone
  obtain ⟨target, ht, phi, name, v, ⟨hphi, hisPhi, -, hpair⟩, rfl⟩ := mem_copiesTo_iff.1 hc
  have hlabel : f.labels[block]? = some b.label := by rw [labels, List.getElem?_map, hb]; rfl
  obtain ⟨hblock, hsome⟩ := mem_order.1 (show last ∈ f.order block by rw [horder]; simp)
  have hindex : (f.executionOrder block).getLast? = some last.index := by
    have hmap := congrArg (List.map Position.index) horder
    rw [order, List.map_map, List.map_append] at hmap
    rw [← List.map_id (f.executionOrder block)]
    exact hmap ▸ List.getLast?_concat
  rcases h.incoming_defined phi (mem_instructions_of_block ht hphi) hisPhi v b.label hpair x
    (Instruction.mem_uses_copy.1 hx) block last.index hlabel hindex with hparam | hdef
  · exact hparam
  · rw [← hblock] at hdef
    exact absurd ((definedThrough_iff hsome).1 hdef hundef) hlast

/-- Where the new function uses a name that is undefined there, the name is a parameter. -/
theorem DefinedBeforeUse.isParameter_of_traced (hp : f.Traced x p)
    (hx : x ∈ f.withCopies.usesAt p) : f.isParameter x = true := by
  obtain ⟨i, hi, huses⟩ := mem_usesAt.1 hx
  obtain ⟨front, back, hsplit, hfront⟩ := hp.before
  obtain ⟨b, hb⟩ : ∃ b, f.blocks[p.block]? = some b := by
    obtain ⟨b', hb', -⟩ := Option.bind_eq_some_iff.1 hi
    rw [withCopies, List.getElem?_map] at hb'
    obtain ⟨b, hb, -⟩ := Option.map_eq_some_iff.1 hb'
    exact ⟨b, hb⟩
  obtain ⟨before, j, after, hrun, hmap, hj, -⟩ := exists_run_of_order (getElem?_withCopies hb) hsplit
  cases hi.symm.trans hj
  have hbefore := (forall_not_mem_definesAt_iff hmap).1 hfront
  have hphi : i.isPhi = false := by
    apply isPhi_of_mem_withoutPhis (f := f) (b := b)
    rw [← Block.mem_run, hrun]
    simp
  -- what is passed in the new block stands for the phis between it in the old one, too
  have hpassed : ∀ ahead : List Instruction, (∀ k ∈ ahead, k ∈ b.instructions) →
      (∀ k ∈ ahead.filter (!·.isPhi), k ∈ before) → ∀ k ∈ ahead, k.result ≠ some x := by
    intro ahead hmem hsub k hk
    cases hkphi : k.isPhi with
    | true => exact hp.phis b hb k (hmem k hk) hkphi
    | false => exact hbefore k (hsub k (List.mem_filter.2 ⟨hk, by rw [hkphi]; rfl⟩))
  have hbody : ∀ k ∈ b.body, k ∈ b.instructions := fun k hk =>
    Block.mem_run.1 (List.mem_append_left _ hk)
  rw [run_withoutPhis, List.append_assoc] at hrun
  rcases split_of_append_eq hrun with ⟨rest, hinBody⟩ | ⟨copied, rfl, hrest⟩
  · obtain ⟨ahead, behind, hsplit, rfl⟩ := exists_split_of_filter_eq hinBody
    have holdRun : b.run = ahead ++ i :: (behind ++ b.terminator?.toList) := by
      rw [Block.run, hsplit, List.append_assoc, List.cons_append]
    refine h.isParameter_of_use hb holdRun hp.head (hpassed ahead ?_ fun k hk => hk) hphi huses
    intro k hk
    exact hbody k (hsplit ▸ List.mem_append_left _ hk)
  · have hbodyPassed := hpassed b.body hbody fun k hk => List.mem_append_left _ hk
    rcases split_of_append_eq hrest with ⟨rest, hinCopies⟩ | ⟨rest, -, hterm⟩
    · exact h.isParameter_of_copy hb (hinCopies ▸ by simp) hp.head hbodyPassed huses
    · have hlast : b.terminator?.toList = [] ++ i :: [] := by
        cases ht : b.terminator? with
        | none => simp [ht] at hterm
        | some t =>
            rw [ht, Option.toList_some] at hterm
            cases rest with
            | nil => rw [(List.cons.inj hterm).1]; rfl
            | cons _ rest => simp at hterm
      exact h.isParameter_of_use hb (by rw [Block.run, hlast]; rfl) hp.head hbodyPassed hphi huses

theorem DefinedBeforeUse.eliminatePhis_eq (hvalid : f.validate = .ok ()) :
    f.eliminatePhis = .ok (f.withCopies, f.phis.length) := by
  have helim : f.Eliminable :=
    ⟨h.phis_named, fun i hi _ => (wellFormed_of_mem hvalid hi).incoming_exist i hi⟩
  exact helim.eliminatePhis_eq (nodup_labels_of_validate hvalid)

theorem DefinedBeforeUse.entryLive_withCopies (hvalid : f.validate = .ok ()) :
    ∃ l, Liveness.ofFunction f.withCopies = .ok l ∧
      ∀ x ∈ l.entryLive, f.withCopies.isParameter x = true := by
  obtain ⟨l, hl⟩ : ∃ l, Liveness.ofFunction f.withCopies = .ok l := by
    apply Liveness.exists_ofFunction
    intro block hblock
    rw [f.sameOutline_withCopies.successorBlocks]
    rw [withCopies, List.length_map] at hblock
    exact f.exists_successorBlocks hvalid block hblock
  refine ⟨l, hl, fun x hx => ?_⟩
  obtain ⟨p, hp, hlive⟩ := Liveness.mem_entryLive_iff.1 hx
  have hpath := (Liveness.liveBefore_iff_usedAlongPath hl).1 hlive
  obtain ⟨gr, hgr, -⟩ := map_eq_ok_iff.1 hl
  have hstart : f.withCopies.entryPoint? = some p := by
    rw [← InstructionGraph.start_of_ofFunction hgr, ← Liveness.start_of_ofFunction hl hgr, hp]
  have hundef : f.withCopies.Undefined x p :=
    .start (entryPoint?_eq_some_iff.1 ⟨hstart, isSome_of_usedAlongPath hpath⟩)
  obtain ⟨q, hq, hxq⟩ := hundef.exists_use hpath
  rcases validate_eq_ok_iff.1 hvalid with ⟨-, hempty⟩ | ⟨-, hwell⟩
  · obtain ⟨i, hi, -⟩ := mem_usesAt.1 hxq
    simp [instruction?, withCopies, hempty] at hi
  · exact h.isParameter_of_traced (h.traced_of_undefined hwell hq) hxq

end

/-- Where every name is defined before it is read, eliminating phis succeeds, and in the function
without phis only parameters are live at the entry. -/
theorem entryLive_eliminatePhis (hvalid : f.validate = .ok ()) (h : f.DefinedBeforeUse) :
    ∃ g n l, f.eliminatePhis = .ok (g, n) ∧ Liveness.ofFunction g = .ok l ∧
      ∀ x ∈ l.entryLive, g.isParameter x = true := by
  obtain ⟨l, hl⟩ := h.entryLive_withCopies hvalid
  exact ⟨f.withCopies, _, l, h.eliminatePhis_eq hvalid, hl⟩

/-- Where a set of positions has the start and is left only by steps behind definitions of the name,
all positions where the name is undefined are in it. -/
theorem Undefined.mem_of_closed {ps : List Position} (hp : f.Undefined x p)
    (hstart : ∀ q ∈ f.entryPoint?, q ∈ ps)
    (hclosed : ∀ q ∈ ps, x ∉ f.definesAt q → ∀ r ∈ (f.flowSuccessors q).toOption.getD [], r ∈ ps) :
    p ∈ ps := by
  induction hp with
  | start hhead => exact hstart _ (entryPoint?_eq_some_iff.2 hhead).1
  | step _ hx hstep ih =>
      obtain ⟨-, -, targets, htargets, hmem⟩ := hstep
      apply hclosed _ ih hx
      rw [htargets]
      exact hmem

/-- Where one of the names that `fibonacciInOrder` defines is undefined. -/
def fibonacciBefore (x : String) : List Position :=
  [⟨0, 0⟩, ⟨1, 0⟩, ⟨1, 1⟩, ⟨1, 2⟩, ⟨1, 3⟩].take (["a", "b", "s", "c"].idxOf x + 2)

theorem mem_fibonacciBefore (hx : x ∈ ["a", "b", "s", "c"])
    (hp : fibonacciInOrder.Undefined x p) : p ∈ fibonacciBefore x := by
  have hstart : ∀ x ∈ ["a", "b", "s", "c"], ⟨0, 0⟩ ∈ fibonacciBefore x := by decide
  have hclosed : ∀ x ∈ ["a", "b", "s", "c"], ∀ q ∈ fibonacciBefore x,
      x ∉ fibonacciInOrder.definesAt q →
        ∀ r ∈ (fibonacciInOrder.flowSuccessors q).toOption.getD [], r ∈ fibonacciBefore x := by
    decide
  refine hp.mem_of_closed ?_ (hclosed x hx)
  rintro _ ⟨⟩
  exact hstart x hx

theorem definedBeforeUse_fibonacciInOrder : fibonacciInOrder.DefinedBeforeUse where
  blocks_nonempty := by decide
  terminators_unnamed := by decide
  phis_named := by decide
  incoming_predecessors := by
    intro q target ps ht hps phi hphi hisPhi label
    match q with
    | 0 =>
        cases ht
        cases List.mem_singleton.1 hphi
        cases hisPhi
    | 1 =>
        cases ht
        have hincoming : ∀ phi ∈ (fibonacciLoop [fibonacciLast, fibonacciNext]).instructions,
            phi.isPhi = true → phi.incoming.map Prod.snd = ["entry", "loop"] := by decide
        have hloop : fibonacciInOrder.predecessorBlocks 1 = .ok [0, 1] := rfl
        have hlabels : fibonacciInOrder.labels = ["entry", "loop", "done"] := rfl
        cases hloop.symm.trans hps
        rw [hincoming phi hphi hisPhi, hlabels]
        simp [eq_comm]
    | 2 =>
        cases ht
        cases List.mem_singleton.1 hphi
        cases hisPhi
    | q + 3 => cases ht
  entry_without_phis := by
    rintro b ⟨⟩
    decide
  uses_defined := by
    have hall : ∀ p ∈ fibonacciInOrder.positions, ∀ i ∈ (fibonacciInOrder.instruction? p).toList,
        i.isPhi = false → ∀ x ∈ i.uses.toList, fibonacciInOrder.isParameter x = true ∨
          x ∈ ["a", "b", "s", "c"] ∧ p ∉ fibonacciBefore x := by decide
    intro p i hi hphi x hx
    have hp : (fibonacciInOrder.instruction? p).isSome := by rw [hi]; rfl
    refine (hall p (mem_positions.2 hp) i (by rw [hi]; simp) hphi x hx).imp_right ?_
    rintro ⟨hname, hnot⟩
    exact (definedBefore_iff hp).2 fun hundef => hnot (mem_fibonacciBefore hname hundef)
  incoming_defined := by
    have hall : ∀ phi ∈ fibonacciInOrder.instructions, phi.isPhi = true →
        ∀ pair ∈ phi.incoming, ∀ x ∈ pair.1.localName?.toList,
          pair.2 = "loop" ∧ x ∈ ["a", "b", "s", "c"] ∧ ⟨1, 4⟩ ∉ fibonacciBefore x := by decide
    intro phi hphi hisPhi v label hpair x hx block last hlabel hlast
    obtain ⟨rfl, hname, hnot⟩ := hall phi hphi hisPhi (v, label) hpair x (by simp [hx])
    have hloop : fibonacciInOrder.labels[1]? = some "loop" := rfl
    obtain rfl := (List.getElem?_inj (by decide) (by decide)).1 (hloop.trans hlabel.symm)
    cases hlast
    refine .inr ((definedThrough_iff (by decide)).2 fun hundef => ?_)
    exact absurd (mem_fibonacciBefore hname hundef) hnot

/-- Only the argument of `fibonacci` is live at its entry once its phis are eliminated. -/
theorem entryLive_eliminatePhis_fibonacci : fibonacciInOrder.validate = .ok () ∧
    fibonacciInOrder.DefinedBeforeUse ∧
      fibonacciInOrder.eliminatePhis = .ok (fibonacciInOrder.withCopies, 2) ∧
        ∃ l, Liveness.ofFunction fibonacciInOrder.withCopies = .ok l ∧
          ∀ x ∈ l.entryLive, x = "n" := by
  have hvalid : fibonacciInOrder.validate = .ok () := rfl
  have huses := definedBeforeUse_fibonacciInOrder
  have hcopies : fibonacciInOrder.eliminatePhis = .ok (fibonacciInOrder.withCopies, 2) := rfl
  obtain ⟨g, n, l, hg, hl, hparams⟩ := entryLive_eliminatePhis hvalid huses
  cases hcopies.symm.trans hg
  refine ⟨hvalid, huses, hcopies, l, hl, fun x hx => ?_⟩
  obtain ⟨param, hparam, hname⟩ := isParameter_iff.1 (hparams x hx)
  cases List.mem_singleton.1 hparam
  exact (Option.some.inj hname).symm

/-- Where every name is defined before it is read, the steps in memory come to an end, and only
parameters are live at the entry of what they leave. -/
theorem entryLive_eliminateInPlace (hvalid : f.validate = .ok ()) (h : f.DefinedBeforeUse) :
    ∃ g n l, f.eliminateInPlace = (g, .ok n) ∧ Liveness.ofFunction g = .ok l ∧
      ∀ x ∈ l.entryLive, g.isParameter x = true := by
  obtain ⟨l, hl⟩ := h.entryLive_withCopies hvalid
  exact ⟨f.withCopies, _, l, eliminateInPlace_eq_ok_iff.2 (h.eliminatePhis_eq hvalid), hl⟩

end Function

end SsaIr
