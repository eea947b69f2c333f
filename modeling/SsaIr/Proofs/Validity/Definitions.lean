import SsaIr.Proofs.Liveness
import SsaIr.Proofs.Validity

/-!
# Where the names of a valid function come from

Validity counts how often each name is defined, while look-ups take the first match. In a valid
definition both agree: every name that is used belongs to a parameter or to the one instruction
that a look-up finds.
-/

namespace SsaIr

/-- Where the values of a partial function are distinct, members with equal values are equal. -/
theorem eq_of_nodup_filterMap {α β : Type} {g : α → Option β} {l : List α} {a b : α} {c : β}
    (h : (l.filterMap g).Nodup) (ha : a ∈ l) (hb : b ∈ l) (hac : g a = some c)
    (hbc : g b = some c) : a = b := by
  by_contra hne
  have hpairwise := List.pairwise_filterMap.1 h
  have : Std.Symm fun a b => ∀ c, g a = some c → ∀ d, g b = some d → c ≠ d :=
    ⟨fun _ _ hab c hc d hd => (hab d hd c hc).symm⟩
  exact hpairwise.forall ha hb hne c hac c hbc rfl

namespace Function

variable {f : Function} {p q : Position} {x : String}

theorem map_snd_located (f : Function) : f.located.map Prod.snd = f.instructions := by
  have hblock : ∀ (b : Block) (block : Nat), (b.instructions.zipIdx.map
      fun pair => ((⟨block, pair.2⟩, pair.1) : Position × Instruction)).map Prod.snd =
        b.instructions := by
    intro b block
    rw [List.map_map]
    exact List.zipIdx_map_fst 0 b.instructions
  rw [located, List.map_flatMap, instructions]
  conv_rhs => rw [← List.zipIdx_map_fst 0 f.blocks, List.flatMap_map]
  exact List.flatMap_congr fun pair _ => hblock pair.1 pair.2

/-- Where results are distinct, no two instructions define the same name. -/
theorem eq_of_mem_definesAt (h : (f.instructions.filterMap Instruction.result).Nodup)
    (hp : x ∈ f.definesAt p) (hq : x ∈ f.definesAt q) : p = q := by
  obtain ⟨i, hi, hx⟩ := mem_definesAt.1 hp
  obtain ⟨j, hj, hy⟩ := mem_definesAt.1 hq
  rw [← map_snd_located, List.filterMap_map] at h
  exact congrArg Prod.fst (eq_of_nodup_filterMap h (mem_located.2 hi) (mem_located.2 hj)
    (Instruction.mem_defines.1 hx) (Instruction.mem_defines.1 hy))

/-- A look-up finds an instruction that defines the name. -/
theorem mem_definesAt_of_definition? (h : f.definition? x = some p) : x ∈ f.definesAt p := by
  obtain ⟨⟨b, block⟩, hb, hfound⟩ := List.exists_of_findSome?_eq_some h
  obtain ⟨index, hindex, rfl⟩ := Option.map_eq_some_iff.1 hfound
  obtain ⟨hlt, hresult, -⟩ := List.findIdx?_eq_some_iff_getElem.1 hindex
  refine mem_definesAt.2 ⟨b.instructions[index], ?_, ?_⟩
  · rw [instruction?, List.mem_zipIdx_iff_getElem?.1 hb]
    exact List.getElem?_eq_getElem hlt
  · exact Instruction.mem_defines.2 (of_decide_eq_true hresult)

/-- A look-up finds nothing if no instruction defines the name. -/
theorem definition?_eq_none_iff : f.definition? x = none ↔ ∀ p, x ∉ f.definesAt p := by
  constructor
  · intro h p hp
    obtain ⟨i, hi, hx⟩ := mem_definesAt.1 hp
    obtain ⟨b, hb, hi⟩ := Option.bind_eq_some_iff.1 hi
    have hblock := List.findSome?_eq_none_iff.1 h (b, p.block) (List.mem_zipIdx_iff_getElem?.2 hb)
    rw [Option.map_eq_none_iff, Block.index?, List.findIdx?_eq_none_iff] at hblock
    exact of_decide_eq_false (hblock i (List.mem_of_getElem? hi)) (Instruction.mem_defines.1 hx)
  · intro h
    cases hx : f.definition? x with
    | none => rfl
    | some p => exact absurd (mem_definesAt_of_definition? hx) (h p)

theorem mem_definedNames :
    x ∈ f.definedNames ↔ f.isParameter x = true ∨ ∃ p, x ∈ f.definesAt p := by
  simp only [definedNames, List.mem_append, isParameter, decide_eq_true_eq, List.mem_filterMap,
    mem_instructions, mem_definesAt, Instruction.mem_defines]
  refine or_congr_right ⟨?_, ?_⟩
  · rintro ⟨i, ⟨p, hp⟩, hx⟩
    exact ⟨p, i, hp, hx⟩
  · rintro ⟨p, i, hp, hx⟩
    exact ⟨i, ⟨p, hp⟩, hx⟩

/-- The name belongs either to a parameter or to the instruction that a look-up finds, which is the
only one to define it. -/
def HasOneDefinition (f : Function) (x : String) : Prop :=
  f.isParameter x = true ∧ f.definition? x = none ∨
    f.isParameter x = false ∧ ∃ p, f.definition? x = some p ∧ ∀ q, x ∈ f.definesAt q ↔ q = p

/-- Where names are distinct, each of them has one definition. -/
theorem hasOneDefinition_of_mem (hnodup : f.definedNames.Nodup) (hx : x ∈ f.definedNames) :
    f.HasOneDefinition x := by
  obtain ⟨-, hresults, hdisjoint⟩ := List.nodup_append.1 hnodup
  have hnot : ∀ {p}, x ∈ f.definesAt p → f.isParameter x = false := by
    intro p hp
    obtain ⟨i, hi, hx⟩ := mem_definesAt.1 hp
    have hresult : x ∈ f.instructions.filterMap Instruction.result :=
      List.mem_filterMap.2 ⟨i, mem_instructions.2 ⟨p, hi⟩, Instruction.mem_defines.1 hx⟩
    exact decide_eq_false fun hparameter => hdisjoint x hparameter x hresult rfl
  rcases mem_definedNames.1 hx with hparameter | ⟨p, hp⟩
  · refine .inl ⟨hparameter, definition?_eq_none_iff.2 fun p hp => ?_⟩
    rw [hnot hp] at hparameter
    cases hparameter
  · refine .inr ⟨hnot hp, ?_⟩
    cases hfind : f.definition? x with
    | none => exact absurd hp (definition?_eq_none_iff.1 hfind p)
    | some q =>
        have hq := mem_definesAt_of_definition? hfind
        refine ⟨q, rfl, fun r => ⟨fun hr => eq_of_mem_definesAt hresults hr hq, ?_⟩⟩
        rintro rfl
        exact hq

/-- A declaration is valid exactly if it has no blocks. A definition is valid exactly if it has
blocks with distinct labels, no name stands for two of its parameters and results, every name used
is one of these, and every label that an instruction mentions is that of a block. In a valid
definition, every name used belongs to a parameter or to one instruction, not to both, and a look-up
finds that instruction. -/
theorem valid_iff_wellFormed (f : Function) :
    (f.validate = .ok () ↔
      f.isDeclaration = true ∧ f.blocks = [] ∨ f.isDeclaration = false ∧ f.WellFormed) ∧
    (f.validate = .ok () → f.isDeclaration = false →
      ∀ i ∈ f.instructions, ∀ x ∈ i.uses, f.HasOneDefinition x) := by
  refine ⟨validate_eq_ok_iff, fun hvalid hdefinition i hi x hx => ?_⟩
  rcases validate_eq_ok_iff.1 hvalid with ⟨hdeclaration, -⟩ | ⟨-, hwell⟩
  · rw [hdefinition] at hdeclaration
    cases hdeclaration
  · exact hasOneDefinition_of_mem hwell.definedNames_nodup (hwell.uses_defined i hi x hx)

/-- A valid loop that reads a name, `%j`, in a block in front of the one that defines it. -/
def rotated : Function where
  name := "rotated"
  returnType := "i32"
  parameters := [{ name := some "n", type := "i32" }]
  blocks :=
    [{ label := "entry", instructions := [.branch "head"] },
     { label := "done"
       instructions := [{ opcode := .ret, type := some "i32", operands := [.temp "j" "i32"] }] },
     { label := "head"
       instructions :=
        [{ result := some "i", opcode := .phi, type := some "i32"
           incoming := [(.argument "n" "i32", "entry"), (.temp "j" "i32", "head")] },
         { result := some "j", opcode := .binary .sub, type := some "i32"
           operands := [.temp "i" "i32", .int 1 "i32"] },
         .condBranch (.temp "j" "i32") "head" "done"] }]

theorem valid_iff_wellFormed_rotated : rotated.validate = .ok () ∧ rotated.WellFormed ∧
    rotated.definition? "n" = none ∧ rotated.definition? "j" = some ⟨2, 1⟩ ∧
      ∀ q, "j" ∈ rotated.definesAt q ↔ q = ⟨2, 1⟩ := by
  have hvalid : rotated.validate = .ok () := by decide +kernel
  obtain ⟨hiff, hdefined⟩ := valid_iff_wellFormed rotated
  have hwell := (hiff.1 hvalid).resolve_left fun h => Bool.false_ne_true h.1
  have huses : ∀ x ∈ ["n", "j"], ∃ i ∈ rotated.instructions, x ∈ i.uses := by decide
  refine ⟨hvalid, hwell.2, ?_, ?_⟩
  · obtain ⟨i, hi, hn⟩ := huses "n" (by decide)
    rcases hdefined hvalid rfl i hi "n" hn with ⟨-, hnone⟩ | ⟨hnot, -⟩
    · exact hnone
    · cases hnot
  · obtain ⟨i, hi, hj⟩ := huses "j" (by decide)
    rcases hdefined hvalid rfl i hi "j" hj with ⟨hparameter, -⟩ | ⟨-, p, hp, honly⟩
    · cases hparameter
    · cases hp
      exact ⟨rfl, honly⟩

end Function

end SsaIr
