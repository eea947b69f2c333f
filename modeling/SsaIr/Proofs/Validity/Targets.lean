import SsaIr.Proofs.Module.Invariants

/-!
# Targets of branches in valid functions

Operands are read alike wherever they stand, so something other than a label can stand where a
branch has a target. Such an operand is no target: validity asks for the blocks of the labels that
are there, and passes over what is not.
-/

namespace SsaIr

open Text

namespace Value

variable {scope : List String} {s text : List Char} {type : String} {v : Value}

theorem isLabel_ofLocalName {name : String} :
    (ofLocalName scope name type).isLabel = true ↔ type = TypeToken.label := by
  unfold ofLocalName
  split
  · next hlabel => simp [isLabel, hlabel]
  · next hlabel => split <;> simp [isLabel, hlabel]

theorem isSome_labelName? (v : Value) : v.labelName?.isSome = v.isLabel := by
  cases v <;> rfl

/-- Behind `label` only a label is read. -/
theorem isLabel_of_after? {rest : List Char} (hlabel : after? "label ".toList (trim text) = some rest)
    (h : parse scope text type = .ok v) : v.isLabel = true := by
  have hform : form scope text type = (parseLabel (trim rest)).map .value := by
    rw [form, hlabel, after?_eq_some_iff.1 hlabel]
    rfl
  rw [parse_eq, hform, parseLabel] at h
  cases hname : sigilName? '%' (trim rest) with
  | none =>
      rw [hname] at h
      cases h
  | some name =>
      rw [hname] at h
      cases h
      rfl

/-- Without `label` in front, a label is a local name that has the type of labels. -/
theorem Spells.isLabel_iff (h : Spells scope type s (.value v))
    (hlabel : after? "label ".toList s = none) :
    v.isLabel = true ↔ type = TypeToken.label ∧ s.head? = some '%' := by
  cases h with
  | metadata hhead => simp [isLabel, hhead]
  | label _ =>
      rw [after?_eq_some_iff.2 rfl] at hlabel
      cases hlabel
  | int hident value =>
      have hhead : s.head? ≠ some '%' := fun hhead =>
        not_mem_of_isIdentifier hident (c := '%') rfl (List.mem_of_head? hhead)
      simp [isLabel, hhead]
  | localName _ => simp [isLabel_ofLocalName]
  | global _ => simp [isLabel]
  | data _ => simp [isLabel]

theorem Spells.head?_ne {opcode : String} {inside : List Char}
    (h : Spells scope type s (.expr opcode inside)) : s.head? ≠ some '%' := by
  cases h with
  | expr hexpr => exact head?_ne_of_constantExpression? hexpr rfl

/-- An operand is read as a label exactly if `label` is written in front of it, or if it is the name
of something local where operands share the type of labels. -/
theorem isLabel_iff_of_parse (h : parse scope text type = .ok v) : v.isLabel = true ↔
    (after? "label ".toList (trim text)).isSome = true ∨
      type = TypeToken.label ∧ (trim text).head? = some '%' := by
  cases hlabel : after? "label ".toList (trim text) with
  | some rest => simp [isLabel_of_after? hlabel h]
  | none =>
      rw [Option.isSome_none, eq_false Bool.false_ne_true, false_or]
      rw [parse_eq] at h
      split at h
      · cases h
      · next hform =>
          cases h
          exact (spells_of_form hform).2.isLabel_iff hlabel
      · next hform =>
          obtain ⟨vs, -, rfl⟩ := map_eq_ok_iff.1 h
          simp [isLabel, (spells_of_form hform).2.head?_ne]

end Value

namespace Instruction

variable {i : Instruction}

/-- The operands that stand where a branch has its targets, the true side before the false side. -/
def targetOperands (i : Instruction) : List Value :=
  match i.opcode, i.operands with
  | .br, [target] => [target]
  | .br, [_, whenFalse, whenTrue] => [whenTrue, whenFalse]
  | .brIcmp, [_, _, whenFalse, whenTrue] => [whenTrue, whenFalse]
  | _, _ => []

theorem branchTargets_eq (i : Instruction) :
    i.branchTargets = i.targetOperands.filterMap Value.labelName? := rfl

theorem length_branchTargets_iff : i.branchTargets.length = i.targetOperands.length ↔
    ∀ v ∈ i.targetOperands, v.isLabel = true := by
  rw [branchTargets_eq, List.filterMap_length_eq_length]
  simp only [Value.isSome_labelName?]

theorem branchTargets_eq_nil_iff : i.branchTargets = [] ↔
    ∀ v ∈ i.targetOperands, v.isLabel = false := by
  rw [branchTargets_eq, List.filterMap_eq_nil_iff]
  simp only [← Value.isSome_labelName?, Option.isSome_eq_false_iff, Option.isNone_iff_eq_none]

/-- A branch that was read has one operand or three, or compares two operands and has four. -/
theorem HasShape.length_targetOperands (h : i.HasShape) (hbranch : i.opcode.isBranch = true) :
    i.targetOperands.length = if i.operands.length = 1 then 1 else 2 := by
  unfold HasShape at h
  unfold targetOperands
  cases hop : i.opcode with
  | br =>
      rw [hop] at h
      rcases h with hone | hthree
      · obtain ⟨target, htarget⟩ := List.length_eq_one_iff.1 hone
        simp [htarget]
      · obtain ⟨condition, whenFalse, whenTrue, hoperands⟩ := List.length_eq_three.1 hthree
        simp [hoperands]
  | brIcmp =>
      rw [hop] at h
      match hoperands : i.operands, h.1 with
      | [lhs, rhs, whenFalse, whenTrue], _ => rfl
  | _ =>
      rw [hop] at hbranch
      cases hbranch

end Instruction

namespace Function

variable {f : Function} {m : Module} {file text : String} {b : Block} {i t : Instruction}
variable {block : Nat}

theorem WellFormed.exists_resolve_targets (h : f.WellFormed) (hi : i ∈ f.instructions) :
    ∃ blocks, i.branchTargets.mapM f.resolve = .ok blocks :=
  exists_mapM_eq_ok_iff.2 fun label hlabel =>
    exists_resolve_iff.2 (h.targets_exist i hi label hlabel)

theorem successorBlocks_of_terminator? (hb : f.blocks[block]? = some b)
    (ht : b.terminator? = some t) (hbranch : t.opcode.isBranch = true) :
    f.successorBlocks block = t.branchTargets.mapM f.resolve := by
  simp only [successorBlocks, hb, ht, hbranch, if_true]

/-- In a valid function that was read, the targets of a branch are blocks. There are as many as the
branch has sides exactly if labels stand in all their places, and a block that ends with a branch
goes nowhere exactly if there is a label in none of them. An operand is a label exactly if it is
written as one, or as a local name where the shared type is that of labels. -/
theorem targets_of_validate (hparse : Module.parse file text = .ok m) (hf : f ∈ m.functions)
    (hvalid : f.validate = .ok ()) :
    (∀ i ∈ f.instructions, i.opcode.isBranch = true →
      (∃ blocks, i.branchTargets.mapM f.resolve = .ok blocks) ∧
        (i.branchTargets.length = (if i.operands.length = 1 then 1 else 2) ↔
          ∀ v ∈ i.targetOperands, v.isLabel = true)) ∧
    (∀ block b t, f.blocks[block]? = some b → b.terminator? = some t →
      t.opcode.isBranch = true → ∃ next, f.successorBlocks block = .ok next ∧
        (next = [] ↔ ∀ v ∈ t.targetOperands, v.isLabel = false)) ∧
    ∀ scope s type v, Value.parse scope s type = .ok v → (v.isLabel = true ↔
      (after? "label ".toList (trim s)).isSome = true ∨
        type = TypeToken.label ∧ (trim s).head? = some '%') := by
  refine ⟨fun i hi hbranch => ⟨?_, ?_⟩, ?_, fun _ _ _ _ => Value.isLabel_iff_of_parse⟩
  · exact (wellFormed_of_mem hvalid hi).exists_resolve_targets hi
  · have hshape := (Module.consistent_of_mem hparse hf).shapes i hi
    rw [← hshape.length_targetOperands hbranch]
    exact Instruction.length_branchTargets_iff
  · intro block b t hb ht hbranch
    have hmem : t ∈ f.instructions :=
      mem_instructions_of_block (List.mem_of_getElem? hb) (Block.mem_of_terminator? ht)
    obtain ⟨next, hnext⟩ := (wellFormed_of_mem hvalid hmem).exists_resolve_targets hmem
    have hlength := (mapM_eq_ok_iff.1 hnext).length_eq
    refine ⟨next, (successorBlocks_of_terminator? hb ht hbranch).trans hnext, ?_⟩
    calc next = []
        ↔ t.branchTargets = [] := by rw [← List.length_eq_zero_iff, ← hlength,
          List.length_eq_zero_iff]
      _ ↔ _ := Instruction.branchTargets_eq_nil_iff

/-- A text with a branch whose targets are both written in one way. -/
def forkText (target : String) : String :=
  "define void @fork(i1 %c, i8 %b) \x7b\na:\n br i1 %c, " ++ target ++ ", " ++ target ++
    "\nb:\n ret void\n\x7d\n"

/-- The function that such a text is read as. -/
def fork (target : Value) : Function where
  name := "fork"
  returnType := "void"
  parameters := [{ name := some "c", type := "i1" }, { name := some "b", type := "i8" }]
  blocks :=
    [{ label := "a"
       instructions := [{ opcode := .br, type := some "i1"
                          operands := [.argument "c" "i1", target, target] }] },
     { label := "b", instructions := [{ opcode := .ret, type := some "void" }] }]

theorem targets_of_validate_fork :
    Module.parse Module.anonymousFile (forkText "label %b") =
        .ok { functions := [fork (.label "b")] } ∧
      (fork (.label "b")).validate = .ok () ∧
      (∀ i ∈ (fork (.label "b")).instructions, i.opcode = .br → i.branchTargets.length = 2) ∧
      ∃ next, (fork (.label "b")).successorBlocks 0 = .ok next ∧ next ≠ [] := by
  have hparse : Module.parse Module.anonymousFile (forkText "label %b") =
      .ok { functions := [fork (.label "b")] } := by decide +kernel
  have hvalid : (fork (.label "b")).validate = .ok () := rfl
  obtain ⟨hbranches, hblocks, -⟩ := targets_of_validate hparse List.mem_cons_self hvalid
  refine ⟨hparse, hvalid, fun i hi hbr => ?_, ?_⟩
  · have hlabels : ∀ i ∈ (fork (.label "b")).instructions, i.opcode = .br →
        i.operands.length = 3 ∧ ∀ v ∈ i.targetOperands, v.isLabel = true := by decide
    have hlength := (hbranches i hi (by rw [hbr]; rfl)).2.2 (hlabels i hi hbr).2
    rw [hlength, (hlabels i hi hbr).1]
    rfl
  · obtain ⟨next, hnext, hnil⟩ := hblocks 0 _ _ rfl rfl rfl
    exact ⟨next, hnext, mt hnil.1 (by decide)⟩

theorem targets_missing_fork :
    Module.parse Module.anonymousFile (forkText "%b") =
        .ok { functions := [fork (.argument "b" "i1")] } ∧
      (fork (.argument "b" "i1")).validate = .ok () ∧
      (∃ b t, (fork (.argument "b" "i1")).blocks[0]? = some b ∧ b.terminator? = some t ∧
        t.opcode = .br ∧ t.operands.length = 3 ∧ t.branchTargets = []) ∧
      (fork (.argument "b" "i1")).successorBlocks 0 = .ok [] :=
  ⟨by decide +kernel, rfl, ⟨_, _, rfl, rfl, rfl, rfl, rfl⟩, rfl⟩

end Function

end SsaIr
