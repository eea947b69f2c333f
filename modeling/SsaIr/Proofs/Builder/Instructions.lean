import SsaIr.Proofs.Builder.Session
import SsaIr.Proofs.Function.Body
import SsaIr.Proofs.Instruction.Branch
import SsaIr.Proofs.Instruction.Simple

/-!
# Built instructions are read

An instruction that a builder was asked for is read from the line it is written on, if its names
are identifiers and its types and operands are simple and agree with each other.
-/

namespace SsaIr

open Text

namespace Instruction

open SsaIr.Function (writable_of_plain ofLine_instruction)

/-- The values that an instruction was given, without the callee and the targets of a branch. -/
def givenValues (i : Instruction) : List Value :=
  match i.opcode with
  | .br | .brIcmp => i.operands.dropLast.dropLast
  | .call => i.operands.dropLast
  | _ => i.inputs

/-- The labels that an instruction was given. -/
def givenLabels (i : Instruction) : List String := i.branchTargets ++ i.incoming.map Prod.snd

/-- Where an operation declares a type, its operands have that type. -/
def agreesInType (i : Instruction) : Bool :=
  match i.opcode with
  | .binary _ | .icmp | .brIcmp | .phi => i.givenValues.all fun v => i.type == some v.type
  | .call => i.operands.getLast?.all fun callee => i.type == some callee.type
  | _ => true

/-- What an operation asks for besides its operands. -/
def hasSimpleForm (scope : List String) (i : Instruction) : Bool :=
  match i.opcode with
  | .alloca => i.type.all TypeToken.isSimpleValue
  | .phi => !i.incoming.isEmpty
  | .call => i.operands.getLast?.all fun callee =>
      callee.isOperand scope && !callee.isConstant && TypeToken.isSimple callee.type
  | _ => true

/-- An instruction with identifiers for names, and with simple types and operands that agree. -/
def isSimple (scope : List String) (i : Instruction) : Bool :=
  i.result.all (isIdentifier ·.toList) && i.givenLabels.all (isIdentifier ·.toList) &&
    i.givenValues.all (fun v => v.isOperand scope && TypeToken.isSimpleValue v.type) &&
    i.agreesInType && i.hasSimpleForm scope

variable {scope : List String} {i : Instruction} {type label name : String} {v lhs rhs : Value}
  {vs : List Value} {x : List Char}

/-- A regular instruction; what is written behind its opcode is code that is read as it. -/
structure ReadsRest (scope : List String) (i : Instruction) : Prop where
  regular : i.isRegular = true
  behind : ∃ x, i.body.toList ++ i.suffixText.toList = i.opcode.keyword.toList ++ ' ' :: x ∧
    Code x ∧ parseRest scope i.opcode x = .ok i

theorem isRegular_of_inputs (htail : i.tail = false) (hcomment : i.comment = none)
    (hinputs : ∀ v ∈ i.inputs, v.isRegular = true) (hform : i.hasRegularForm = true) :
    i.isRegular = true := by
  rw [isRegular, htail, hform, hcomment, List.all_eq_true.2 hinputs]
  rfl

/-! ## Operands that share a type -/

/-- Operands of a simple type. -/
def Shares (scope : List String) (type : String) (vs : List Value) : Prop :=
  TypeToken.isSimple type = true ∧ ∀ v ∈ vs, v.isOperand scope = true ∧ v.type = type

/-- Operands with the targets of a branch behind them. -/
theorem Shares.arguments (labels : List String) (h : Shares scope type vs)
    (hlabels : ∀ l ∈ labels, isIdentifier l.toList = true) :
    ∀ v ∈ vs ++ labels.map Value.label,
      Argument (branchText v) ∧ Value.parse scope (branchText v) type = .ok v := by
  obtain ⟨htype, hvs⟩ := h
  intro v hv
  rcases List.mem_append.1 hv with hv | hv
  · obtain ⟨hoperand, rfl⟩ := hvs v hv
    exact ⟨argument_operand hoperand, parse_operand hoperand htype⟩
  · obtain ⟨l, hl, rfl⟩ := List.mem_map.1 hv
    exact ⟨argument_target (hlabels l hl), parse_target (hlabels l hl)⟩

theorem Shares.reads (labels : List String) (h : Shares scope type vs) (hi : i.suffixes = [])
    (hne : vs ≠ []) (hlabels : ∀ l ∈ labels, isIdentifier l.toList = true) :
    Code ([',', ' '].intercalate ((vs ++ labels.map Value.label).map branchText)) ∧
      parseShared scope i (type.toList ++
        ' ' :: [',', ' '].intercalate ((vs ++ labels.map Value.label).map branchText)) =
        .ok { i with type := some type, operands := vs ++ labels.map Value.label } := by
  have hread := h.arguments labels hlabels
  have hne' : vs ++ labels.map Value.label ≠ [] := List.append_ne_nil_of_left_ne_nil hne _
  constructor
  · refine code_intercalate (mt List.map_eq_nil_iff.1 hne') fun p hp => ?_
    obtain ⟨v, hv, rfl⟩ := List.mem_map.1 hp
    exact (hread v hv).1
  · exact parseShared_list branchText hi (TypeToken.isToken_of_isSimple h.1) hne'
      (fun v hv => (hread v hv).1) fun v hv => (hread v hv).2

/-- A simple type in front of code. -/
theorem Code.behind_type (hx : Code x) (htype : TypeToken.isSimple type = true) :
    Code (type.toList ++ ' ' :: x) :=
  hx.word (TypeToken.unbroken_of_isSimple htype) (TypeToken.toList_ne_nil_of_isSimple htype)
    (TypeToken.plain_of_isSimple htype)

theorem Shares.isRegular (labels : List String) (h : Shares scope type vs) :
    ∀ v ∈ vs ++ labels.map Value.label, v.isRegular = true := by
  intro v hv
  rcases List.mem_append.1 hv with hv | hv
  · exact Value.isRegular_of_isOperand (h.2 v hv).1
  · obtain ⟨l, -, rfl⟩ := List.mem_map.1 hv
    rfl

theorem Shares.all_isPlain (h : Shares scope type vs) : vs.all Value.isPlain = true :=
  List.all_eq_true.2 fun v hv => Value.isPlain_of_isOperand (h.2 v hv).1

theorem Shares.map_branchText (h : Shares scope type vs) :
    vs.map branchText = vs.map fun v => v.text.toList :=
  List.map_congr_left fun v hv => branchText_of_plain (Value.isPlain_of_isOperand (h.2 v hv).1)

/-- Operands alone, as they are written and as they are read. -/
theorem Shares.reads_alone (h : Shares scope type vs) (hi : i.suffixes = []) (hne : vs ≠ []) :
    Code (bareList vs).toList ∧
      parseShared scope i (type.toList ++ ' ' :: (bareList vs).toList) =
        .ok { i with type := some type, operands := vs } := by
  have hreads := h.reads [] hi hne (by simp)
  rwa [List.map_nil, List.append_nil, h.map_branchText, ← toList_bareList] at hreads

theorem readsRest_copy (h : Shares scope type [v]) :
    ReadsRest scope { opcode := .copy, type := some type, operands := [v] } := by
  obtain ⟨hcode, hparse⟩ := h.reads_alone (i := { opcode := .copy }) rfl (by simp)
  refine ⟨isRegular_of_inputs rfl rfl (h.isRegular []) h.all_isPlain, _, ?_,
    hcode.behind_type h.1, bind_eq_ok_iff.2 ⟨_, hparse, rfl⟩⟩
  simp [body, suffixText, Opcode.keyword]

/-- A simple type is no wrap flag. -/
theorem takeFlags_of_isSimple (htype : TypeToken.isSimple type = true)
    (hx : x.head?.all (!isBlank ·) = true) :
    takeFlags (type.toList ++ ' ' :: x) = ([], type.toList ++ ' ' :: x) := by
  apply takeFlags_of_not_flag
  rw [nextToken_space (TypeToken.unbroken_of_isSimple htype)
    (TypeToken.toList_ne_nil_of_isSimple htype) hx]
  cases hflag : isWrapFlag type.toList with
  | false => rfl
  | true =>
    have hmem := mem_of_isWrapFlag hflag
    simp only [List.mem_cons, List.not_mem_nil, or_false, String.toList_inj] at hmem
    rcases hmem with rfl | rfl | rfl
    all_goals exact absurd htype (by decide)

theorem readsRest_binary {op : BinaryOp} (h : Shares scope type [lhs, rhs]) :
    ReadsRest scope { opcode := .binary op, type := some type, operands := [lhs, rhs] } := by
  obtain ⟨hcode, hparse⟩ := h.reads_alone (i := { opcode := .binary op }) rfl (by simp)
  have hflags := takeFlags_of_isSimple h.1 hcode.solid.head_all
  refine ⟨isRegular_of_inputs rfl rfl (h.isRegular []) h.all_isPlain, _, ?_,
    hcode.behind_type h.1, ?_⟩
  · simp [body, suffixText, Opcode.keyword]
  · have hgoal : parseBinary scope { opcode := .binary op }
        (type.toList ++ ' ' :: (bareList [lhs, rhs]).toList) =
          .ok { opcode := .binary op, type := some type, operands := [lhs, rhs] } := by
      rw [parseBinary, hflags]
      exact bind_eq_ok_iff.2 ⟨_, hparse, rfl⟩
    exact hgoal

theorem readsRest_ret (h : Shares scope type [v]) (hvoid : type ≠ TypeToken.void) :
    ReadsRest scope { opcode := .ret, type := some type, operands := [v] } := by
  obtain ⟨hcode, hparse⟩ := h.reads_alone (i := { opcode := .ret }) rfl (by simp)
  obtain ⟨arg, htake⟩ := take_of_parseShared hparse rfl
  refine ⟨isRegular_of_inputs rfl rfl (h.isRegular []) h.all_isPlain, _, ?_,
    hcode.behind_type h.1, parseRet_eq_ok_iff.2 ⟨_, arg, htake, .inr ?_⟩⟩
  · have htyped := typedText_of_isPlain (Value.isPlain_of_isOperand (h.2 v (by simp)).1)
    rw [(h.2 v (by simp)).2] at htyped
    simp [body, suffixText, Opcode.keyword, toList_typedList, toList_bareList, htyped]
  · exact ⟨fun htype => hvoid (String.toList_injective htype), hparse, rfl⟩

/-! ## Comparisons and branches -/

theorem parse_predicate {p : Predicate} {i' : Instruction} (hx : Code x) {count : Nat}
    (hparse : parseShared scope { i with predicate := some p } x = .ok i')
    (hcount : i'.operands.length = count) :
    Code (p.keyword.toList ++ ' ' :: x) ∧
      parseCompare scope i (p.keyword.toList ++ ' ' :: x) count =
        .ok { i' with operands := exchangeTargets i'.operands } := by
  obtain ⟨hunbroken, hne⟩ := unbroken_predicate p
  have htoken := nextToken_space hunbroken hne hx.solid.head_all
  constructor
  · exact hx.word hunbroken hne (by cases p <;> decide)
  · refine parseCompare_eq_ok_iff.2 ⟨p, i', ?_, ?_, hcount, rfl⟩
    · rw [htoken, String.ofList_toList]
      exact Predicate.ofKeyword?_keyword p
    · rwa [htoken]

theorem readsRest_icmp {p : Predicate} (h : Shares scope type [lhs, rhs]) :
    ReadsRest scope
      { opcode := .icmp, type := some type, operands := [lhs, rhs], predicate := some p } := by
  obtain ⟨hcode, hparse⟩ :=
    h.reads_alone (i := { opcode := .icmp, predicate := some p }) rfl (by simp)
  obtain ⟨hcode', hparse'⟩ := parse_predicate (i := { opcode := .icmp }) (hcode.behind_type h.1)
    hparse rfl
  refine ⟨isRegular_of_inputs rfl rfl (h.isRegular []) h.all_isPlain, _, ?_, hcode',
    hparse'⟩
  simp [body, suffixText, predicateText, Opcode.keyword]

theorem readsRest_compareBranch {p : Predicate} {whenTrue whenFalse : String}
    (h : Shares scope type [lhs, rhs])
    (hlabels : ∀ l ∈ [whenTrue, whenFalse], isIdentifier l.toList = true) :
    ReadsRest scope (compareBranch p type lhs rhs whenTrue whenFalse) := by
  obtain ⟨hcode, hparse⟩ := h.reads (i := { opcode := .brIcmp, predicate := some p })
    [whenTrue, whenFalse] rfl (by simp) hlabels
  obtain ⟨hcode', hparse'⟩ := parse_predicate (i := { opcode := .brIcmp }) (hcode.behind_type h.1)
    hparse rfl
  have hplain := h.all_isPlain
  simp only [List.all_cons, List.all_nil, Bool.and_true, Bool.and_eq_true] at hplain
  refine ⟨isRegular_of_inputs rfl rfl (h.isRegular [whenFalse, whenTrue]) ?_, _, ?_,
    hcode', hparse'⟩
  · simp [compareBranch, hasRegularForm, hplain, Value.isLabel]
  have htexts := h.map_branchText
  simp only [List.map_cons, List.map_nil, List.cons.injEq, and_true] at htexts
  simp [compareBranch, body, suffixText, predicateText, Opcode.keyword, toList_bareList,
    toList_typedList, htexts, branchText_of_label (v := .label _) rfl]

theorem readsRest_condBranch {whenTrue whenFalse : String} (h : Shares scope type [v])
    (hlabels : ∀ l ∈ [whenTrue, whenFalse], isIdentifier l.toList = true) :
    ReadsRest scope (condBranch v whenTrue whenFalse) := by
  obtain ⟨hcode, hparse⟩ := h.reads (i := { opcode := .br }) [whenTrue, whenFalse] rfl (by simp)
    hlabels
  obtain ⟨hoperand, htype⟩ := h.2 v (by simp)
  have hplain := Value.isPlain_of_isOperand hoperand
  refine ⟨isRegular_of_inputs rfl rfl (h.isRegular [whenFalse, whenTrue]) ?_, _, ?_,
    hcode.behind_type h.1, parseBr_eq_ok_iff.2 ⟨_, hparse, .inr rfl, ?_⟩⟩
  · simp [condBranch, hasRegularForm, hplain, Value.isLabel]
  · have htexts := h.map_branchText
    simp only [List.map_cons, List.map_nil, List.cons.injEq, and_true] at htexts
    have htyped := typedText_of_isPlain hplain
    simp [condBranch, body, suffixText, Opcode.keyword, toList_typedList, htexts, htyped, htype,
      branchText_of_label (v := .label _) rfl]
  · rw [condBranch, htype]
    rfl

theorem readsRest_branch (h : isIdentifier label.toList = true) :
    ReadsRest scope (branch label) := by
  have hargument : ∀ v ∈ [Value.label label], Argument v.text.toList := by
    rw [List.forall_mem_singleton, Value.text_label]
    exact argument_name h
  have hread : ∀ v ∈ [Value.label label],
      Value.parse scope v.text.toList TypeToken.label = .ok v := by
    rw [List.forall_mem_singleton, Value.text_label]
    exact Value.parse_of_form ((Value.form_localName h).trans (by rw [Value.ofLocalName]; rfl))
  have hparse := parseShared_list (i := { opcode := .br }) (fun v => v.text.toList) rfl
    TypeToken.isToken_label (List.cons_ne_nil _ _) hargument hread
  have hcode : Code ([',', ' '].intercalate ([Value.label label].map fun v => v.text.toList)) :=
    code_intercalate (by simp) (List.forall_mem_map.2 hargument)
  refine ⟨isRegular_of_inputs rfl rfl (List.forall_mem_singleton.2 rfl) rfl, _, ?_,
    hcode.word (by decide) (by decide) (by decide),
    parseBr_eq_ok_iff.2 ⟨_, hparse, .inl rfl, rfl⟩⟩
  simp [branch, body, suffixText, Opcode.keyword, toList_typedList,
    typedText_of_isLabel (v := .label _) rfl]

/-! ## Operands with types of their own -/

/-- Operands of simple types. -/
def AreTyped (scope : List String) (vs : List Value) : Prop :=
  ∀ v ∈ vs, v.isOperand scope = true ∧ TypeToken.isSimple v.type = true

theorem AreTyped.code (h : AreTyped scope vs) (hne : vs ≠ []) : Code (typedList vs).toList := by
  rw [toList_typedList]
  refine code_intercalate (by simpa using hne) (List.forall_mem_map.2 fun v hv => ?_)
  exact argument_typedText (h v hv).1 (h v hv).2

theorem AreTyped.parse (h : AreTyped scope vs) (hi : i.suffixes = []) :
    parseTyped scope i (typedList vs).toList = .ok { i with operands := vs } := by
  rw [toList_typedList]
  exact parseTyped_list hi h

theorem AreTyped.areRegular (h : AreTyped scope vs) : Value.areRegular vs = true := by
  refine Value.areRegular_iff.2 fun v hv => ⟨Value.isRegular_of_isOperand (h v hv).1, ?_⟩
  rw [Value.hasReservedType, List.elem_eq_mem, decide_eq_false_iff_not]
  intro hmem
  have hreserved : v.type ∈ TypeToken.reserved := by
    simp only [List.mem_cons, List.not_mem_nil, or_false] at hmem
    rcases hmem with h | h | h <;> simp [h, TypeToken.reserved]
  exact TypeToken.ne_of_isSimple (h v hv).2 hreserved rfl

theorem AreTyped.isRegular (h : AreTyped scope i.operands) (htail : i.tail = false)
    (hcomment : i.comment = none) (hincoming : i.incoming = [])
    (hop : i.opcode = .load ∨ i.opcode = .store ∨ i.opcode = .getElementPtr) :
    i.isRegular = true := by
  have hend : i.endsInMetadata = false := by
    rw [endsInMetadata, Bool.and_eq_false_iff]
    refine .inr ?_
    cases hlast : i.operands.getLast? with
    | none => rfl
    | some v => exact Value.isMetadata_of_isOperand (h v (List.mem_of_getLast? hlast)).1
  refine isRegular_of_inputs htail hcomment ?_ ?_
  · rw [inputs, hincoming, List.map_nil, List.append_nil]
    exact fun v hv => Value.isRegular_of_isOperand (h v hv).1
  · rcases hop with hop | hop | hop
    all_goals rw [hasRegularForm, hop, h.areRegular, hend]; rfl

/-- The first type is no word in front of the operands. -/
theorem AreTyped.after?_eq_none {word : String} (h : AreTyped scope (v :: vs))
    (hreserved : word ∈ TypeToken.reserved) (hword : Unbroken word.toList)
    (hne : word.toList ≠ []) :
    after? (word.toList ++ [' ']) (typedList (v :: vs)).toList = none := by
  obtain ⟨hoperand, htype⟩ := h v List.mem_cons_self
  have hbreaks : ∀ s, Breaks (' ' :: s) := fun _ => rfl
  rw [toList_typedList, List.map_cons, intercalate_comma,
    typedText_of_isPlain (Value.isPlain_of_isOperand hoperand), List.append_assoc]
  apply after?_of_breaks (TypeToken.unbroken_of_isSimple htype)
    (TypeToken.toList_ne_nil_of_isSimple htype) (hbreaks _) hword hne
  exact fun heq => TypeToken.ne_of_isSimple htype hreserved (String.toList_injective heq).symm

theorem readsRest_store (h : AreTyped scope [lhs, rhs]) :
    ReadsRest scope { opcode := .store, operands := [lhs, rhs] } := by
  refine ⟨AreTyped.isRegular h rfl rfl rfl (by simp), _, ?_, h.code (by simp),
    bind_eq_ok_iff.2 ⟨_, h.parse rfl, rfl⟩⟩
  simp [body, suffixText, Opcode.keyword]

theorem readsRest_load (h : AreTyped scope [v]) :
    ReadsRest scope { opcode := .load, operands := [v] } := by
  have hlead : after? "getelementptr ".toList (typedList [v]).toList = none :=
    h.after?_eq_none (by decide : "getelementptr" ∈ TypeToken.reserved) (by decide) (by decide)
  have hparse : parseLoad scope { opcode := .load } (typedList [v]).toList =
      .ok { opcode := .load, operands := [v] } := by
    rw [parseLoad, hlead]
    exact bind_eq_ok_iff.2 ⟨_, h.parse rfl, rfl⟩
  refine ⟨AreTyped.isRegular h rfl rfl rfl (by simp), _, ?_, h.code (by simp), hparse⟩
  simp [body, suffixText, wordIf, Opcode.keyword]

theorem readsRest_getElementPtr {inbounds : Bool} (h : AreTyped scope (v :: vs)) :
    ReadsRest scope { opcode := .getElementPtr, operands := v :: vs, inbounds } := by
  have hcode := h.code (List.cons_ne_nil _ _)
  cases inbounds with
  | true =>
    have hparse : parseGetElementPtr scope { opcode := .getElementPtr }
        ("inbounds ".toList ++ (typedList (v :: vs)).toList) =
          .ok { opcode := .getElementPtr, operands := v :: vs, inbounds := true } := by
      rw [parseGetElementPtr, after?_eq_some_iff.2 rfl]
      exact bind_eq_ok_iff.2 ⟨_, h.parse rfl, rfl⟩
    refine ⟨AreTyped.isRegular h rfl rfl rfl (by simp), _, ?_,
      hcode.append (a := "inbounds ".toList) (by decide) (by decide), hparse⟩
    simp [body, suffixText, wordIf, Opcode.keyword]
  | false =>
    have hlead : after? "inbounds ".toList (typedList (v :: vs)).toList = none :=
      h.after?_eq_none (by decide : "inbounds" ∈ TypeToken.reserved) (by decide) (by decide)
    have hparse : parseGetElementPtr scope { opcode := .getElementPtr }
        (typedList (v :: vs)).toList = .ok { opcode := .getElementPtr, operands := v :: vs } := by
      rw [parseGetElementPtr, hlead]
      exact bind_eq_ok_iff.2 ⟨_, h.parse rfl, rfl⟩
    refine ⟨AreTyped.isRegular h rfl rfl rfl (by simp), _, ?_, hcode, hparse⟩
    simp [body, suffixText, wordIf, Opcode.keyword]

theorem readsRest_call (hvs : AreTyped scope vs) (hcallee : v.isOperand scope = true)
    (hconstant : v.isConstant = false) (htype : TypeToken.isSimple v.type = true) :
    ReadsRest scope { opcode := .call, type := some v.type, operands := vs ++ [v] } := by
  refine ⟨isRegular_of_inputs rfl rfl ?_ ?_, _, ?_, ?_,
    parseCall_list (i := { opcode := .call }) rfl hcallee hconstant htype hvs⟩
  · rw [inputs, List.map_nil, List.append_nil, List.forall_mem_append, List.forall_mem_singleton]
    exact ⟨fun w hw => Value.isRegular_of_isOperand (hvs w hw).1,
      Value.isRegular_of_isOperand hcallee⟩
  · simp only [hasRegularForm, List.dropLast_concat, hvs.areRegular]
    rfl
  · simp [body, callText, suffixText, wordIf, Opcode.keyword, toList_typedList, Value.listText]
  · have hname := argument_text hcallee
    have hplain : Plain (v.text.toList ++ '(' :: Value.listText vs) := by
      refine hname.plain.append (Plain.append (a := ['(']) (by decide) (plain_intercalate ?_))
      exact List.forall_mem_map.2 fun v hv => (argument_typedText (hvs v hv).1 (hvs v hv).2).plain
    have hclose : Code [')'] := ⟨⟨rfl, rfl⟩, by decide, by decide⟩
    have hcode := hclose.append (a := v.text.toList ++ '(' :: Value.listText vs) (by
      rw [List.head?_append_of_ne_nil _ hname.solid.ne_nil]
      exact hname.solid.head) hplain
    rw [List.append_assoc] at hcode
    exact hcode.behind_type htype

/-! ## The other operations -/

theorem readsRest_alloca (h : TypeToken.isSimple type = true) :
    ReadsRest scope { opcode := .alloca, type := some type } := by
  have hcode := code_of_isSimple h
  refine ⟨isRegular_of_inputs rfl rfl (by simp [inputs]) ?_, type.toList, ?_, hcode, ?_⟩
  · have hne : type ≠ "" := fun hnil => hcode.solid.ne_nil (by rw [hnil]; rfl)
    simp [hasRegularForm, Value.areRegular, endsInMetadata, endsWith, hne, hcode.colon]
  · simp [body, suffixText, Opcode.keyword]
  · refine (parseAlloca_type (TypeToken.isToken_of_isSimple h)).trans ?_
    rw [String.ofList_toList]

theorem readsRest_ret_void :
    ReadsRest scope { opcode := .ret, type := some TypeToken.void } := by
  refine ⟨rfl, TypeToken.void.toList, ?_, ⟨⟨rfl, rfl⟩, by decide, by decide⟩, ?_⟩
  · simp [body, suffixText, Opcode.keyword]
  · exact parseRet_eq_ok_iff.2
      ⟨_, [], TypeToken.isToken_void.take_self, .inl ⟨rfl, [], .inl ⟨rfl, rfl⟩, rfl⟩⟩

theorem readsRest_phi {incoming : List (Value × String)} (htype : TypeToken.isSimple type = true)
    (hne : incoming ≠ []) (hpairs : ∀ q ∈ incoming, q.1.isOperand scope = true ∧ q.1.type = type ∧
      isIdentifier q.2.toList = true) :
    ReadsRest scope { opcode := .phi, type := some type, incoming } := by
  refine ⟨isRegular_of_inputs rfl rfl ?_ ?_, _, ?_, ?_,
    parsePhi_list (i := { opcode := .phi }) rfl htype hne hpairs⟩
  · exact List.forall_mem_map.2 fun q hq => Value.isRegular_of_isOperand (hpairs q hq).1
  · exact List.all_eq_true.2 fun q hq => Value.isPlain_of_isOperand (hpairs q hq).1
  · have htext := toList_incomingText { opcode := .phi, type := some type, incoming }
    simp only [pairTexts] at htext
    simp [body, suffixText, Opcode.keyword, htext]
  · refine Code.behind_type (code_intercalate (by simpa using hne) ?_) htype
    refine List.forall_mem_map.2 fun q hq => ?_
    obtain ⟨hoperand, rfl, hlabel⟩ := hpairs q hq
    exact (pair_reread hoperand htype hlabel).1

/-! ## All operations -/

/-- Operands have the type that the operation declares. -/
theorem Shares.of_agrees
    (hvs : ∀ v ∈ vs, v.isOperand scope = true ∧ TypeToken.isSimpleValue v.type = true)
    (hne : vs ≠ []) (hagrees : (vs.all fun v => some type == some v.type) = true) :
    Shares scope type vs := by
  simp only [List.all_eq_true, beq_iff_eq, Option.some.injEq] at hagrees
  obtain ⟨v, vs, rfl⟩ := List.exists_cons_of_ne_nil hne
  refine ⟨?_, fun v hv => ⟨(hvs v hv).1, (hagrees v hv).symm⟩⟩
  rw [hagrees v List.mem_cons_self]
  exact TypeToken.isSimple_of_isSimpleValue (hvs v List.mem_cons_self).2

theorem Shares.of_value
    (hv : v.isOperand scope = true ∧ TypeToken.isSimpleValue v.type = true) :
    Shares scope v.type [v] :=
  ⟨TypeToken.isSimple_of_isSimpleValue hv.2, List.forall_mem_singleton.2 ⟨hv.1, rfl⟩⟩

theorem AreTyped.of_values
    (hvs : ∀ v ∈ vs, v.isOperand scope = true ∧ TypeToken.isSimpleValue v.type = true) :
    AreTyped scope vs :=
  fun v hv => ⟨(hvs v hv).1, TypeToken.isSimple_of_isSimpleValue (hvs v hv).2⟩

/-- Whatever a builder was asked for, its operands are read behind the opcode. -/
theorem readsRest_of_isSimple {c : Builder.Call} (hc : c.instruction? name = some i)
    (hi : i.isSimple scope = true) : ReadsRest scope { i with result := none } := by
  simp only [isSimple, Bool.and_eq_true, List.all_eq_true] at hi
  obtain ⟨⟨⟨⟨-, hlabels⟩, hvalues⟩, hagrees⟩, hform⟩ := hi
  cases c with
  | binary op lhs rhs type =>
    obtain rfl := Option.some.inj hc
    exact readsRest_binary (.of_agrees hvalues (List.cons_ne_nil _ _) hagrees)
  | icmp predicate lhs rhs =>
    obtain rfl := Option.some.inj hc
    exact readsRest_icmp (.of_agrees hvalues (List.cons_ne_nil _ _) hagrees)
  | load pointer type =>
    obtain rfl := Option.some.inj hc
    exact readsRest_load (.of_values hvalues)
  | store value pointer =>
    obtain rfl := Option.some.inj hc
    exact readsRest_store (.of_values hvalues)
  | alloca type =>
    obtain rfl := Option.some.inj hc
    exact readsRest_alloca (TypeToken.isSimple_of_isSimpleValue hform)
  | getElementPtr pointer indices inbounds type =>
    obtain rfl := Option.some.inj hc
    simp only [givenValues, inputs, List.map_nil, List.append_nil] at hvalues
    exact readsRest_getElementPtr (.of_values hvalues)
  | call callee arguments type =>
    obtain rfl := Option.some.inj hc
    simp only [givenValues, List.dropLast_concat] at hvalues
    simp only [agreesInType, hasSimpleForm, List.getLast?_concat, Option.all_some, beq_iff_eq,
      Option.some.injEq, Bool.and_eq_true, Bool.not_eq_true'] at hagrees hform
    obtain ⟨⟨hcallee, hconstant⟩, htype⟩ := hform
    rw [hagrees]
    exact readsRest_call (.of_values hvalues) hcallee hconstant htype
  | phi type incoming =>
    obtain rfl := Option.some.inj hc
    simp only [givenValues, inputs, List.nil_append, List.forall_mem_map] at hvalues
    simp only [agreesInType, givenValues, inputs, List.nil_append, List.all_eq_true, beq_iff_eq,
      List.forall_mem_map, Option.some.injEq] at hagrees
    simp only [givenLabels, branchTargets, List.filterMap_nil, List.nil_append,
      List.forall_mem_map] at hlabels
    have hne : incoming ≠ [] := by simpa [hasSimpleForm] using hform
    obtain ⟨q, hq⟩ := List.exists_mem_of_ne_nil _ hne
    refine readsRest_phi ?_ hne fun q hq => ⟨(hvalues q hq).1, (hagrees q hq).symm, hlabels q hq⟩
    rw [hagrees q hq]
    exact TypeToken.isSimple_of_isSimpleValue (hvalues q hq).2
  | copy target value =>
    obtain rfl := Option.some.inj hc
    exact readsRest_copy (.of_value (hvalues value List.mem_cons_self))
  | ret value =>
    cases value with
    | none =>
      obtain rfl := Option.some.inj hc
      exact readsRest_ret_void
    | some value =>
      obtain rfl := Option.some.inj hc
      obtain ⟨hoperand, htype⟩ := hvalues value List.mem_cons_self
      rw [TypeToken.isSimpleValue, Bool.and_eq_true, bne_iff_ne] at htype
      exact readsRest_ret ⟨htype.1, List.forall_mem_singleton.2 ⟨hoperand, rfl⟩⟩ htype.2
  | branch target =>
    obtain rfl := Option.some.inj hc
    exact readsRest_branch (hlabels target List.mem_cons_self)
  | condBranch condition whenTrue whenFalse =>
    obtain rfl := Option.some.inj hc
    exact readsRest_condBranch (.of_value (hvalues condition List.mem_cons_self)) hlabels
  | compareBranch predicate lhs rhs whenTrue whenFalse =>
    obtain rfl := Option.some.inj hc
    exact readsRest_compareBranch (.of_agrees hvalues (List.cons_ne_nil _ _) hagrees) hlabels
  | _ => cases hc

/-! ## Lines -/

/-- With its result in front, the instruction is read from what it is written as. -/
theorem ReadsRest.reads (h : ReadsRest scope { i with result := none })
    (hresult : ∀ name ∈ i.result, isIdentifier name.toList = true) :
    Code i.text.toList ∧ parse scope i.text.toList = .ok i := by
  obtain ⟨x, htext, hcode, hparse⟩ := h.behind
  obtain ⟨-, -, htail, -⟩ := isFresh_parseRest hparse
  obtain ⟨hunbroken, hne, hplain⟩ := unbroken_keyword i.opcode
  have hopens : Opens (i.opcode.keyword.toList ++ ' ' :: x) false i.opcode x :=
    nextToken_space hunbroken hne hcode.solid.head_all
  have hcode := hcode.word hunbroken hne hplain
  have hsame : i = { ({ i with result := none } : Instruction) with
      result := i.result, tail := false } := by
    rw [← (htail : i.tail = false)]
  have hbody : i.body.toList ++ i.suffixText.toList = i.opcode.keyword.toList ++ ' ' :: x := htext
  rw [text, String.append_assoc, String.toList_append, String.toList_append, hbody, resultText]
  cases hi : i.result with
  | none =>
    refine ⟨hcode, parse_eq_ok_iff.2 ⟨_, _, _, _, _, _, ?_, hopens, hparse, hi ▸ hsame⟩⟩
    exact splitResult_none (hopens.head?_ne_percent hcode.solid)
  | some name =>
    have hname := hresult name hi
    have hshape : ("%" ++ name ++ " = ").toList ++ (i.opcode.keyword.toList ++ ' ' :: x) =
        '%' :: (name.toList ++ [' ', '=', ' '] ++ (i.opcode.keyword.toList ++ ' ' :: x)) := by
      simp
    have hplain : Plain ('%' :: (name.toList ++ [' ', '=', ' '])) :=
      (Value.isWord_cons (c := '%') (.inl rfl) hname).plain.append (b := [' ', '=', ' '])
        (by decide)
    dsimp only
    rw [hshape]
    refine ⟨hcode.append rfl hplain, parse_eq_ok_iff.2
      ⟨_, _, _, _, _, _, splitResult_some hname hcode.solid, hopens, hparse, hi ▸ hsame⟩⟩

/-- Whatever a builder was asked for, it comes from the line that it is written on. -/
theorem fromLine_of_isSimple {c : Builder.Call} (hc : c.instruction? name = some i)
    (hi : i.isSimple scope = true) : FromLine scope i i.text.toList := by
  have hresult : ∀ name ∈ i.result, isIdentifier name.toList = true := by
    simp only [isSimple, Bool.and_eq_true] at hi
    exact fun name hname => (Option.all_eq_true _ _).1 hi.1.1.1.1 name hname
  obtain ⟨hcode, hparse⟩ := (readsRest_of_isSimple hc hi).reads hresult
  have hcomment := comment_of_parse hparse
  have hnone : IsComment none := by simp [IsComment]
  have hwritable := writable_of_plain hcode.solid hcode.plain hnone rfl
  refine ⟨fun hmem => (hcode.plain _ hmem).2.2 rfl, i.text.toList, ?_, ?_⟩
  · have hsplit := hwritable.splitComment_at_start
    rw [Option.map_none, Option.getD_none, List.append_nil] at hsplit
    rw [hcomment]
    exact ofLine_instruction hsplit hcode.solid.trim_eq hcode.solid.ne_nil
      (ne_close_of_parse hparse) hcode.colon
  · rw [hparse, ← hcomment]

theorem isRegular_of_isSimple {c : Builder.Call} (hc : c.instruction? name = some i)
    (hi : i.isSimple scope = true) : i.isRegular = true :=
  (readsRest_of_isSimple hc hi).regular

end Instruction

end SsaIr
