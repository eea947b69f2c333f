import Mathlib.Data.List.Nodup
import SsaIr.Function.Validity
import SsaIr.Proofs.Graph.Instructions

/-!
# What validity says

The checks of a definition succeed exactly if the definition is well formed.
-/

namespace SsaIr

theorem firstRepeat?_eq_none_iff {seen as : List String} :
    firstRepeat? seen as = none ↔ as.Nodup ∧ ∀ a ∈ as, a ∉ seen := by
  induction as generalizing seen with
  | nil => simp [firstRepeat?]
  | cons a as ih =>
      rw [firstRepeat?]
      by_cases ha : a ∈ seen
      · simp [ha]
      · rw [if_neg ha, ih, List.nodup_cons, List.forall_mem_cons]
        constructor
        · rintro ⟨hn, hseen⟩
          refine ⟨⟨fun h => hseen a h List.mem_cons_self, hn⟩, ha, fun b hb h => ?_⟩
          exact hseen b hb (List.mem_cons_of_mem a h)
        · rintro ⟨⟨ha', hn⟩, -, hseen⟩
          refine ⟨hn, fun b hb h => ?_⟩
          rcases List.mem_cons.1 h with rfl | h
          · exact ha' hb
          · exact hseen b hb h

namespace Function

variable {f : Function} {p : Position} {i : Instruction} {label : String}

theorem resolve_eq_ok_iff {block : Nat} :
    f.resolve label = .ok block ↔ f.blockIndex? label = some block := by
  unfold resolve
  cases f.blockIndex? label <;> simp

theorem exists_blockIndex?_iff : (∃ block, f.blockIndex? label = some block) ↔ label ∈ f.labels := by
  rw [← Option.isSome_iff_exists, ← Option.ne_none_iff_isSome, ne_eq, blockIndex?_eq_none_iff,
    not_not]

theorem exists_resolve_iff : (∃ block, f.resolve label = .ok block) ↔ label ∈ f.labels := by
  simp only [resolve_eq_ok_iff, exists_blockIndex?_iff]

theorem mem_definedNames_iff {x : String} : x ∈ f.definedNames ↔
    x ∈ f.parameterNames ∨ ∃ i ∈ f.instructions, i.result = some x := by
  rw [definedNames, List.mem_append, List.mem_filterMap]

theorem repeatedNames_eq_nil_iff : f.repeatedNames.toList = [] ↔ f.definedNames.Nodup := by
  rw [List.nodup_iff_count_le_one, List.eq_nil_iff_forall_not_mem]
  simp only [repeatedNames, NameSet.mem_toList, NameSet.mem_ofList, List.mem_filter,
    decide_eq_true_eq, not_and, Nat.not_lt]
  constructor
  · intro h x
    by_cases hx : x ∈ f.definedNames
    · exact h x hx
    · rw [List.count_eq_zero_of_not_mem hx]
      exact Nat.zero_le 1
  · intro h x _
    exact h x

theorem validateInstruction_eq_ok_iff : f.validateInstruction p i = .ok () ↔
    (∀ x ∈ i.uses, x ∈ f.definedNames) ∧ (∀ label ∈ i.branchTargets, label ∈ f.labels) ∧
      ∀ pair ∈ i.incoming, pair.2 ∈ f.labels := by
  unfold validateInstruction
  cases h : i.uses.toList.find? (· ∉ f.definedNames) with
  | some x =>
      have hx := List.mem_of_find?_eq_some h
      have hnot : x ∉ f.definedNames := by simpa using List.find?_some h
      constructor
      · intro hthrow
        cases hthrow
      · rintro ⟨huses, -⟩
        exact absurd (huses x hx) hnot
  | none =>
      have huses : ∀ x ∈ i.uses, x ∈ f.definedNames := by
        intro x hx
        simpa using List.find?_eq_none.1 h x hx
      have htargets : (∃ bs, i.branchTargets.mapM f.resolve = .ok bs) ↔
          ∀ label ∈ i.branchTargets, label ∈ f.labels := by
        rw [exists_mapM_eq_ok_iff]
        simp only [exists_resolve_iff]
      have hincoming : (∃ bs, i.incoming.mapM (fun pair => f.resolve pair.2) = .ok bs) ↔
          ∀ pair ∈ i.incoming, pair.2 ∈ f.labels := by
        rw [exists_mapM_eq_ok_iff]
        simp only [exists_resolve_iff]
      rw [← htargets, ← hincoming]
      constructor
      · intro hrun
        obtain ⟨bs, hbs, hrun⟩ := bind_eq_ok_iff.1 hrun
        obtain ⟨cs, hcs, -⟩ := bind_eq_ok_iff.1 hrun
        exact ⟨huses, ⟨bs, hbs⟩, cs, hcs⟩
      · rintro ⟨-, ⟨bs, hbs⟩, cs, hcs⟩
        exact bind_eq_ok_iff.2 ⟨bs, hbs, bind_eq_ok_iff.2 ⟨cs, hcs, rfl⟩⟩

/-- What the checks of a definition ask for. -/
structure WellFormed (f : Function) : Prop where
  blocks_ne_nil : f.blocks ≠ []
  labels_nodup : f.labels.Nodup
  definedNames_nodup : f.definedNames.Nodup
  uses_defined : ∀ i ∈ f.instructions, ∀ x ∈ i.uses, x ∈ f.definedNames
  targets_exist : ∀ i ∈ f.instructions, ∀ label ∈ i.branchTargets, label ∈ f.labels
  incoming_exist : ∀ i ∈ f.instructions, ∀ pair ∈ i.incoming, pair.2 ∈ f.labels

theorem wellFormed_iff : f.WellFormed ↔ f.blocks ≠ [] ∧ f.labels.Nodup ∧
    f.definedNames.Nodup ∧ ∀ p i, f.instruction? p = some i →
      (∀ x ∈ i.uses, x ∈ f.definedNames) ∧ (∀ label ∈ i.branchTargets, label ∈ f.labels) ∧
        ∀ pair ∈ i.incoming, pair.2 ∈ f.labels := by
  constructor
  · intro h
    refine ⟨h.blocks_ne_nil, h.labels_nodup, h.definedNames_nodup, fun p i hi => ?_⟩
    have hmem := mem_instructions.2 ⟨p, hi⟩
    exact ⟨h.uses_defined i hmem, h.targets_exist i hmem, h.incoming_exist i hmem⟩
  · rintro ⟨hblocks, hlabels, hnames, hall⟩
    refine ⟨hblocks, hlabels, hnames, fun i hi => ?_, fun i hi => ?_, fun i hi => ?_⟩
    all_goals obtain ⟨p, hp⟩ := mem_instructions.1 hi
    · exact (hall p i hp).1
    · exact (hall p i hp).2.1
    · exact (hall p i hp).2.2

theorem validateDefinition_eq_ok_iff : f.validateDefinition = .ok () ↔ f.WellFormed := by
  rw [wellFormed_iff]
  unfold validateDefinition
  cases hblocks : f.blocks with
  | nil => simp [throw, throwThe, MonadExceptOf.throw, bind, Except.bind]
  | cons b bs =>
      cases hlabels : firstRepeat? [] f.labels with
      | some label =>
          have hnodup : ¬f.labels.Nodup := by
            intro h
            rw [firstRepeat?_eq_none_iff.2 ⟨h, by simp⟩] at hlabels
            cases hlabels
          simp [hnodup, throw, throwThe, MonadExceptOf.throw]
      | none =>
          have hnodup := (firstRepeat?_eq_none_iff.1 hlabels).1
          cases hnames : f.repeatedNames.toList with
          | cons name others =>
              have hrepeat : ¬f.definedNames.Nodup := by
                intro h
                rw [repeatedNames_eq_nil_iff.2 h] at hnames
                cases hnames
              simp [hrepeat, throw, throwThe, MonadExceptOf.throw]
          | nil =>
              have hnames := repeatedNames_eq_nil_iff.1 hnames
              refine forM_eq_ok_iff.trans ?_
              simp only [Prod.forall, mem_located, validateInstruction_eq_ok_iff, hnodup, hnames,
                true_and, ne_eq, reduceCtorEq, not_false_eq_true]

/-- A declaration is valid if it has no blocks, and a definition if it is well formed. -/
theorem validate_eq_ok_iff : f.validate = .ok () ↔
    f.isDeclaration = true ∧ f.blocks = [] ∨ f.isDeclaration = false ∧ f.WellFormed := by
  unfold validate
  cases f.isDeclaration with
  | true =>
      rw [if_pos rfl]
      cases hblocks : f.blocks with
      | nil => simp
      | cons b bs => simp
  | false =>
      rw [if_neg Bool.false_ne_true, validateDefinition_eq_ok_iff]
      simp

/-- A valid function with an instruction is a well-formed definition. -/
theorem wellFormed_of_mem (hvalid : f.validate = .ok ()) (hi : i ∈ f.instructions) :
    f.WellFormed := by
  rcases validate_eq_ok_iff.1 hvalid with ⟨-, hempty⟩ | ⟨-, hwell⟩
  · rw [instructions, hempty] at hi
    cases hi
  · exact hwell

theorem nodup_labels_of_validate (hvalid : f.validate = .ok ()) : f.labels.Nodup := by
  rcases validate_eq_ok_iff.1 hvalid with ⟨-, hempty⟩ | ⟨-, hwell⟩
  · rw [labels, hempty]
    exact List.nodup_nil
  · exact hwell.labels_nodup

end Function

end SsaIr
