import SsaIr.Proofs.Function.Body
import SsaIr.Proofs.Value.Scope

/-!
# Shapes of instructions that were read

An instruction that was read has the operands that its opcode asks for, and all its values were
read in the scope of its function.
-/

namespace SsaIr.Instruction

open Text

variable {scope : List String} {i i' : Instruction} {rest code : List Char} {op : Opcode}
  {v : Value}

/-- What the opcode asks for: how many operands, and what has to stand beside them. -/
def HasShape (i : Instruction) : Prop :=
  match i.opcode with
  | .store | .binary _ => i.operands.length = 2
  | .icmp => i.operands.length = 2 ∧ i.predicate.isSome = true
  | .brIcmp => i.operands.length = 4 ∧ i.predicate.isSome = true
  | .br => i.operands.length = 1 ∨ i.operands.length = 3
  | .copy => i.operands.length = 1
  | .cast _ => i.operands.length = 1 ∧ i.castType.isSome = true
  | .ret => i.operands.length = if i.type = some TypeToken.void then 0 else 1
  | .load => if i.offsetLoad then 1 ≤ i.operands.length else i.operands.length = 1
  | .getElementPtr | .call => 1 ≤ i.operands.length
  | .phi => i.operands = [] ∧ i.incoming ≠ []
  | .unreachable => i.operands = []
  | .alloca => True

/-- The instruction has its shape, and its values were read in the scope. -/
structure IsRead (scope : List String) (i : Instruction) : Prop where
  shape : i.HasShape
  inputs : ∀ v ∈ i.inputs, v.IsRead scope

theorem isRead_inputs (hincoming : i.incoming = []) (h : ∀ v ∈ i.operands, v.IsRead scope) :
    ∀ v ∈ i.inputs, v.IsRead scope := by
  rw [inputs, hincoming, List.map_nil, List.append_nil]
  exact h

theorem isRead_parseShared (h : parseShared scope i rest = .ok i') (hi : i.incoming = []) :
    ∀ v ∈ i'.inputs, v.IsRead scope := by
  obtain ⟨t, args, parts, i₁, args', -, -, hsuffixes, hoperands, heq⟩ := parseShared_eq_ok_iff.1 h
  apply isRead_inputs
  · rw [heq, (takesSuffixes_of_eq_ok hsuffixes).eq]
    exact hi
  · exact forall_mem_of_forall₂ (hoperands.imp fun _ _ hv => Value.isRead_of_parse hv)

theorem isRead_parseTyped (h : parseTyped scope i rest = .ok i') (hi : i.incoming = []) :
    ∀ v ∈ i'.inputs, v.IsRead scope := by
  obtain ⟨parts, i₁, args', -, hsuffixes, hoperands, heq⟩ := parseTyped_eq_ok_iff.1 h
  apply isRead_inputs
  · rw [heq, (takesSuffixes_of_eq_ok hsuffixes).eq]
    exact hi
  · exact forall_mem_of_forall₂ (hoperands.imp fun _ _ hv => Value.isRead_of_parseTyped hv)

theorem isRead_exchangeTargets (h : ∀ v ∈ i.inputs, v.IsRead scope) :
    ∀ v ∈ ({ i with operands := exchangeTargets i.operands } : Instruction).inputs,
      v.IsRead scope := by
  intro v hv
  apply h
  rw [inputs, List.mem_append] at hv ⊢
  exact hv.imp_left mem_exchangeTargets.1

theorem isRead_parseCompare {count : Nat} (h : parseCompare scope i rest count = .ok i')
    (hi : i.incoming = []) : i'.operands.length = count ∧ i'.predicate.isSome = true ∧
      ∀ v ∈ i'.inputs, v.IsRead scope := by
  obtain ⟨p, i₁, -, hparse, hcount, rfl⟩ := parseCompare_eq_ok_iff.1 h
  refine ⟨(length_exchangeTargets _).trans hcount, ?_, ?_⟩
  · exact congrArg Option.isSome (keepsHead_parseShared hparse).predicate
  · exact isRead_exchangeTargets (isRead_parseShared hparse hi)

theorem isRead_parseLoad (h : parseLoad scope i rest = .ok i') (hi : i.incoming = [])
    (hload : i.offsetLoad = false) :
    (if i'.offsetLoad then 1 ≤ i'.operands.length else i'.operands.length = 1) ∧
      ∀ v ∈ i'.inputs, v.IsRead scope := by
  unfold parseLoad at h
  split at h
  · obtain ⟨i₁, hparse, h⟩ := bind_eq_ok_iff.1 h
    obtain ⟨hne, rfl⟩ := expectSomeOperand_eq_ok_iff.1 h
    refine ⟨?_, isRead_parseTyped hparse hi⟩
    rw [(keepsHead_parseTyped hparse).offsetLoad, if_pos rfl]
    exact List.length_pos_iff.2 hne
  · obtain ⟨i₁, hparse, h⟩ := bind_eq_ok_iff.1 h
    obtain ⟨hcount, rfl⟩ := expectOperands_eq_ok_iff.1 h
    refine ⟨?_, isRead_parseTyped hparse hi⟩
    rw [(keepsHead_parseTyped hparse).offsetLoad, hload, if_neg Bool.false_ne_true]
    exact hcount

theorem isRead_parseGetElementPtr (h : parseGetElementPtr scope i rest = .ok i')
    (hi : i.incoming = []) : 1 ≤ i'.operands.length ∧ ∀ v ∈ i'.inputs, v.IsRead scope := by
  unfold parseGetElementPtr at h
  split at h
  all_goals
    obtain ⟨i₁, hparse, h⟩ := bind_eq_ok_iff.1 h
    obtain ⟨hne, rfl⟩ := expectSomeOperand_eq_ok_iff.1 h
    exact ⟨List.length_pos_iff.2 hne, isRead_parseTyped hparse hi⟩

theorem isRead_parsePhi (h : parsePhi scope i rest = .ok i') (hi : i.operands = []) :
    i'.operands = [] ∧ i'.incoming ≠ [] ∧ ∀ v ∈ i'.inputs, v.IsRead scope := by
  obtain ⟨t, args, parts, i₁, args', -, -, hsuffixes, hincoming, hne, heq⟩ :=
    parsePhi_eq_ok_iff.1 h
  have hoperands : i'.operands = [] := by
    rw [heq, (takesSuffixes_of_eq_ok hsuffixes).eq]
    exact hi
  refine ⟨hoperands, hne, ?_⟩
  rw [inputs, hoperands, List.nil_append, List.forall_mem_map]
  refine forall_mem_of_forall₂ (hincoming.imp fun _ p hp => ?_)
  obtain ⟨_, _, _, -, -, -, hv⟩ := parseIncoming_eq_ok_iff.1 hp
  exact Value.isRead_of_parse hv

theorem isRead_parseCall (h : parseCall scope i rest = .ok i') (hi : i.incoming = []) :
    1 ≤ i'.operands.length ∧ ∀ v ∈ i'.inputs, v.IsRead scope := by
  obtain ⟨t, rest', front, arguments, bracketed, behind, args, callee, flags, sufs, parts, -, -, -,
    -, hargs, hcallee, -, -, hsuffixes⟩ := parseCall_eq_ok_iff.1 h
  have heq := (takesSuffixes_of_eq_ok hsuffixes).eq
  have hoperands : i'.operands = args ++ [callee] := by rw [heq]
  refine ⟨by simp [hoperands], isRead_inputs (by rw [heq]; exact hi) ?_⟩
  rw [hoperands, List.forall_mem_append, List.forall_mem_singleton]
  exact ⟨Value.isRead_of_parseTypedList hargs, Value.isRead_of_parse hcallee⟩

theorem isRead_parseCast (h : parseCast scope i rest = .ok i') (hi : i.incoming = []) :
    i'.operands.length = 1 ∧ i'.castType.isSome = true ∧ ∀ v ∈ i'.inputs, v.IsRead scope := by
  obtain ⟨t, args, parts, i₁, conversion, value, destination, v, -, -, hsuffixes, -, hv, rfl⟩ :=
    parseCast_eq_ok_iff.1 h
  refine ⟨rfl, rfl, isRead_inputs ?_ ?_⟩
  · rw [(takesSuffixes_of_eq_ok hsuffixes).eq]
    exact hi
  · exact List.forall_mem_singleton.2 (Value.isRead_of_parse hv)

theorem isRead_parseRet (h : parseRet scope i rest = .ok i') (hi : i.inputs = []) :
    (i'.operands.length = if i'.type = some TypeToken.void then 0 else 1) ∧
      ∀ v ∈ i'.inputs, v.IsRead scope := by
  obtain ⟨hoperands, hincoming⟩ := List.append_eq_nil_iff.1 hi
  obtain ⟨t, args, htake, ⟨rfl, parts, -, hsuffixes⟩ | ⟨hne, hshared, hcount⟩⟩ :=
    parseRet_eq_ok_iff.1 h
  · have heq := (takesSuffixes_of_eq_ok hsuffixes).eq
    have hinputs : i'.inputs = [] := by
      rw [heq]
      exact hi
    rw [hinputs]
    refine ⟨?_, by simp⟩
    rw [heq]
    exact congrArg List.length hoperands
  · refine ⟨?_, isRead_parseShared hshared (List.map_eq_nil_iff.1 hincoming)⟩
    have htype : i'.type ≠ some TypeToken.void := by
      intro hvoid
      obtain ⟨arg, hagain⟩ := take_of_parseShared hshared hvoid
      exact hne (Prod.mk.inj (Except.ok.inj (htake.symm.trans hagain))).1
    rw [hcount, if_neg htype]

/-- An instruction has the shape of its opcode, behind which it was read. -/
theorem isRead_parseRest (h : parseRest scope op rest = .ok i) : i.IsRead scope := by
  have hop := (isFresh_parseRest h).2.1
  cases op with
  | store =>
      obtain ⟨i, hparse, h⟩ := bind_eq_ok_iff.1 h
      obtain ⟨hcount, rfl⟩ := expectOperands_eq_ok_iff.1 h
      exact ⟨by simpa only [HasShape, hop] using hcount, isRead_parseTyped hparse rfl⟩
  | copy | binary =>
      obtain ⟨i, hparse, h⟩ := bind_eq_ok_iff.1 h
      obtain ⟨hcount, rfl⟩ := expectOperands_eq_ok_iff.1 h
      exact ⟨by simpa only [HasShape, hop] using hcount, isRead_parseShared hparse rfl⟩
  | load =>
      obtain ⟨hcount, hinputs⟩ := isRead_parseLoad h rfl rfl
      exact ⟨by simpa only [HasShape, hop] using hcount, hinputs⟩
  | getElementPtr =>
      obtain ⟨hcount, hinputs⟩ := isRead_parseGetElementPtr h rfl
      exact ⟨by simpa only [HasShape, hop] using hcount, hinputs⟩
  | icmp | brIcmp =>
      obtain ⟨hcount, hpredicate, hinputs⟩ := isRead_parseCompare h rfl
      exact ⟨by simpa only [HasShape, hop] using ⟨hcount, hpredicate⟩, hinputs⟩
  | br =>
      obtain ⟨i₁, hparse, hcount, rfl⟩ := parseBr_eq_ok_iff.1 h
      refine ⟨?_, isRead_exchangeTargets (isRead_parseShared hparse rfl)⟩
      have hop : i₁.opcode = .br := hop
      simpa only [HasShape, hop, length_exchangeTargets] using hcount
  | phi =>
      obtain ⟨hoperands, hincoming, hinputs⟩ := isRead_parsePhi h rfl
      exact ⟨by simpa only [HasShape, hop] using ⟨hoperands, hincoming⟩, hinputs⟩
  | call =>
      obtain ⟨hcount, hinputs⟩ := isRead_parseCall h rfl
      exact ⟨by simpa only [HasShape, hop] using hcount, hinputs⟩
  | ret =>
      obtain ⟨hcount, hinputs⟩ := isRead_parseRet h rfl
      exact ⟨by simpa only [HasShape, hop] using hcount, hinputs⟩
  | alloca =>
      refine ⟨by simp only [HasShape, hop], ?_⟩
      obtain ⟨t, args, -, ⟨-, rfl⟩ | ⟨counts, -, hcounts⟩⟩ := parseAlloca_cases h
      · exact isRead_inputs rfl (by simp)
      · exact isRead_parseTyped hcounts rfl
  | cast =>
      obtain ⟨hcount, hcast, hinputs⟩ := isRead_parseCast h rfl
      exact ⟨by simpa only [HasShape, hop] using ⟨hcount, hcast⟩, hinputs⟩
  | unreachable =>
      obtain ⟨-, rfl⟩ := parseUnreachable_eq_ok_iff.1 h
      exact ⟨rfl, isRead_inputs rfl (by simp)⟩

/-- A line of code has the shape of its opcode, reads its values in the scope, and names its result
by an identifier. -/
theorem isRead_parse (h : parse scope code = .ok i) :
    i.IsRead scope ∧ ∀ name ∈ i.result, isIdentifier name.toList = true := by
  obtain ⟨result, s, tail, op, rest, i, hresult, -, hparse, rfl⟩ := parse_eq_ok_iff.1 h
  obtain ⟨hshape, hinputs⟩ := isRead_parseRest hparse
  refine ⟨⟨hshape, hinputs⟩, fun name hname => ?_⟩
  rcases splitResult_cases hresult with ⟨-, rfl, -⟩ | ⟨_, _, _, -, -, hident, rfl, -⟩
  · cases hname
  · cases hname
    exact hident

theorem FromLine.isRead {line : List Char} (h : FromLine scope i line) :
    i.IsRead scope ∧ ∀ name ∈ i.result, isIdentifier name.toList = true := by
  obtain ⟨code, -, hparse⟩ := h.ofLine
  obtain ⟨⟨hshape, hinputs⟩, hresult⟩ := isRead_parse hparse
  exact ⟨⟨hshape, hinputs⟩, hresult⟩

/-- A copy for a phi has the name of the phi and one of its values. -/
theorem Written.isRead (h : i.Written scope) :
    i.IsRead scope ∧ ∀ name ∈ i.result, isIdentifier name.toList = true := by
  cases h with
  | line hline => exact hline.isRead
  | copy hline hphi hname hmem =>
      obtain ⟨⟨-, hinputs⟩, hresult⟩ := hline.isRead
      refine ⟨⟨rfl, ?_⟩, ?_⟩
      · apply isRead_inputs rfl
        rw [Instruction.copy, List.forall_mem_singleton]
        exact hinputs _ (List.mem_append_right _ (List.mem_map_of_mem hmem))
      · rintro _ ⟨⟩
        exact hresult _ hname

end SsaIr.Instruction
