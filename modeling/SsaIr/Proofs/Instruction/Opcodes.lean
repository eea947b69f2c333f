import SsaIr.Proofs.Instruction.Call
import SsaIr.Proofs.Instruction.Forms

/-!
# Opcodes are read back

What is written behind an opcode is read again as the same instruction, opcode by opcode.
-/

namespace SsaIr.Instruction

open Text

variable {scope : List String} {i i' : Instruction} {rest s : List Char} {op : Opcode}
  {args : List (List Char)}

/-! ## What reading the operands leaves alone -/

/-- These fields are decided in front of the operands. -/
structure KeepsHead (i i' : Instruction) : Prop where
  result : i'.result = i.result
  opcode : i'.opcode = i.opcode
  predicate : i'.predicate = i.predicate
  inbounds : i'.inbounds = i.inbounds
  offsetLoad : i'.offsetLoad = i.offsetLoad
  tail : i'.tail = i.tail
  comment : i'.comment = i.comment

theorem TakesSuffixes.keepsHead {parts : List (List Char)} (h : TakesSuffixes i i' parts args) :
    KeepsHead i i' := by
  rw [h.eq]
  exact ⟨rfl, rfl, rfl, rfl, rfl, rfl, rfl⟩

theorem keepsHead_parseShared (h : parseShared scope i rest = .ok i') : KeepsHead i i' := by
  obtain ⟨t, args, parts, i₁, args', -, -, hsuffixes, -, hi⟩ := parseShared_eq_ok_iff.1 h
  have hhead := (takesSuffixes_of_eq_ok hsuffixes).keepsHead
  rw [hi]
  exact { hhead with }

theorem flags_parseShared (h : parseShared scope i rest = .ok i') : i'.flags = i.flags := by
  obtain ⟨t, args, parts, i₁, args', -, -, hsuffixes, -, hi⟩ := parseShared_eq_ok_iff.1 h
  rw [hi, (takesSuffixes_of_eq_ok hsuffixes).eq]

theorem keepsHead_parseTyped (h : parseTyped scope i rest = .ok i') : KeepsHead i i' := by
  obtain ⟨parts, i₁, args', -, hsuffixes, -, hi⟩ := parseTyped_eq_ok_iff.1 h
  have hhead := (takesSuffixes_of_eq_ok hsuffixes).keepsHead
  rw [hi]
  exact { hhead with }

theorem keepsHead_parsePhi (h : parsePhi scope i rest = .ok i') : KeepsHead i i' := by
  obtain ⟨t, args, parts, i₁, args', -, -, hsuffixes, -, -, hi⟩ := parsePhi_eq_ok_iff.1 h
  have hhead := (takesSuffixes_of_eq_ok hsuffixes).keepsHead
  rw [hi]
  exact { hhead with }

theorem keepsHead_parseCast (h : parseCast scope i rest = .ok i') : KeepsHead i i' := by
  obtain ⟨t, args, parts, i₁, conversion, value, destination, v, -, -, hsuffixes, -, -, hi⟩ :=
    parseCast_eq_ok_iff.1 h
  have hhead := (takesSuffixes_of_eq_ok hsuffixes).keepsHead
  rw [hi]
  exact { hhead with }

theorem keepsHead_parseCall (h : parseCall scope i rest = .ok i') : KeepsHead i i' := by
  obtain ⟨t, rest', front, arguments, bracketed, behind, args, callee, flags, sufs, parts, -, -, -,
    -, -, -, -, -, hsuffixes⟩ := parseCall_eq_ok_iff.1 h
  have hhead := (takesSuffixes_of_eq_ok hsuffixes).keepsHead
  exact { hhead with }

theorem keepsHead_parseAlloca (h : parseAlloca scope i rest = .ok i') : KeepsHead i i' := by
  obtain ⟨t, args, -, ⟨-, rfl⟩ | ⟨counts, -, hcounts⟩⟩ := parseAlloca_cases h
  · exact ⟨rfl, rfl, rfl, rfl, rfl, rfl, rfl⟩
  · have hhead := keepsHead_parseTyped hcounts
    exact { hhead with }

theorem keepsHead_parseRet (h : parseRet scope i rest = .ok i') : KeepsHead i i' := by
  obtain ⟨t, args, -, ⟨-, parts, -, hsuffixes⟩ | ⟨-, hshared, -⟩⟩ := parseRet_eq_ok_iff.1 h
  · have hhead := (takesSuffixes_of_eq_ok hsuffixes).keepsHead
    exact { hhead with }
  · exact keepsHead_parseShared hshared

/-! ## Lists as they are written -/

theorem toList_bareList (vs : List Value) :
    (bareList vs).toList = [',', ' '].intercalate (vs.map fun v => v.text.toList) := by
  rw [bareList, String.toList_intercalate, List.map_map]
  rfl

theorem toList_typedList (vs : List Value) :
    (typedList vs).toList = [',', ' '].intercalate (vs.map fun v => v.typedText.toList) := by
  rw [typedList, String.toList_intercalate, List.map_map]
  rfl

theorem toList_typedList_append (h : i.operands ≠ []) :
    (typedList i.operands).toList ++ i.suffixText.toList = i.typedText := by
  rw [toList_typedList, typedText, intercalate_append_suffixes (by simpa using h)]

/-! ## One opcode after another -/

/-- What stands behind the opcode is written so that it is read again. -/
def RereadRest (scope : List String) (op : Opcode) (rest : List Char) (i : Instruction) : Prop :=
  ∃ x, i.body.toList ++ i.suffixText.toList = op.keyword.toList ++ ' ' :: x ∧
    Rewrites rest x ∧ parseRest scope op x = .ok i

theorem expectSomeOperand_eq_ok_iff :
    expectSomeOperand i = .ok i' ↔ i.operands ≠ [] ∧ i' = i := by
  rw [expectSomeOperand, ← List.isEmpty_eq_false_iff]
  cases i.operands.isEmpty with
  | true => simp
  | false => simp [eq_comm]

/-- Where the form with a word in front was not read, it is not read from what is written. -/
theorem RereadTypedList.lead_eq_none {w : List Char} (h : RereadTypedList scope i i' rest)
    (hmem : w ∈ ["inbounds".toList, "getelementptr".toList]) (hne : i'.operands ≠ [])
    (hreserved : ∀ v ∈ i'.operands, v.hasReservedType = false)
    (hrest : rest.head?.all (!isBlank ·) = true) (hnone : after? (w ++ [' ']) rest = none) :
    after? (w ++ [' ']) i'.typedText = none := by
  have hword : w.head?.any (· != '!') = true ∧ Unbroken w ∧ ',' ∉ w ∧
      String.ofList w ∈ ["align", "inbounds", "getelementptr"] := by
    simp only [List.mem_cons, List.not_mem_nil, or_false] at hmem
    rcases hmem with rfl | rfl <;> decide
  obtain ⟨hhead, hunbroken, hcomma, hlist⟩ := hword
  apply h.lead w hhead hunbroken hcomma hne ?_ hrest hnone
  intro v hv htype
  have hreserved := hreserved v hv
  rw [Value.hasReservedType, ← String.ofList_toList (s := v.type), htype, List.elem_eq_mem,
    decide_eq_true hlist] at hreserved
  cases hreserved

/-- Operands with types of their own, behind an optional word. -/
theorem rereadRest_typed (lead : List Char) {j : Instruction}
    (hparse : parseTyped scope j s = .ok i) (hop : i.opcode = op)
    (hmemory : op = .load ∨ op = .store ∨ op = .getElementPtr) (hform : i.hasRegularForm = true)
    (hne : i.operands ≠ []) (hrest : rest = lead ++ s)
    (hlead : lead = [] ∨ lead.head?.any (!isBlank ·) = true)
    (hbody : i.body.toList = op.keyword.toList ++ ' ' :: (lead ++ (typedList i.operands).toList))
    (hagain : RereadTypedList scope j i s → (∀ v ∈ i.operands, v.hasReservedType = false) →
      parseRest scope op (lead ++ i.typedText) = .ok i) : RereadRest scope op rest i := by
  have hregular : Value.areRegular i.operands = true ∧ i.endsInMetadata = false := by
    rw [hasRegularForm, hop] at hform
    rcases hmemory with rfl | rfl | rfl
    all_goals simpa only [Bool.and_eq_true, Bool.not_eq_true'] using hform
  have hreread := parseTyped_reread hparse hregular.1 hregular.2
  have hrewrites : Rewrites s i.typedText :=
    ⟨hreread.solid fun h => hne h.1, hreread.keeps, hreread.colon⟩
  refine ⟨lead ++ i.typedText, ?_, ?_, ?_⟩
  · rw [hbody, ← toList_typedList_append hne]
    simp only [List.append_assoc, List.cons_append]
  · rw [hrest]
    rcases hlead with rfl | hlead
    · exact hrewrites
    · exact hrewrites.behind hlead
  · exact hagain hreread fun v hv => (Value.areRegular_iff.1 hregular.1 v hv).2

theorem rereadRest_store (h : parseRest scope .store rest = .ok i)
    (hform : i.hasRegularForm = true) : RereadRest scope .store rest i := by
  obtain ⟨i, hparse, h⟩ := bind_eq_ok_iff.1 h
  obtain ⟨hcount, rfl⟩ := expectOperands_eq_ok_iff.1 h
  have hop : i.opcode = .store := (keepsHead_parseTyped hparse).opcode
  have hne : i.operands ≠ [] := by
    rw [← List.length_pos_iff, hcount]
    decide
  apply rereadRest_typed [] hparse hop (by decide) hform hne rfl (.inl rfl)
  · rw [body, hop]
    exact String.toList_append
  · intro hreread _
    exact bind_eq_ok_iff.2 ⟨i, hreread.parse, expectOperands_eq_ok_iff.2 ⟨hcount, rfl⟩⟩

theorem rereadRest_load (hrest : rest.head?.all (!isBlank ·) = true)
    (h : parseRest scope .load rest = .ok i) (hform : i.hasRegularForm = true) :
    RereadRest scope .load rest i := by
  have h' : parseLoad scope { opcode := .load } rest = .ok i := h
  unfold parseLoad at h'
  split at h'
  · next s hlead =>
      obtain ⟨i, hparse, h'⟩ := bind_eq_ok_iff.1 h'
      obtain ⟨hne, rfl⟩ := expectSomeOperand_eq_ok_iff.1 h'
      have hhead := keepsHead_parseTyped hparse
      have hoffset : i.offsetLoad = true := hhead.offsetLoad
      apply rereadRest_typed _ hparse hhead.opcode (by decide) hform hne
        (after?_eq_some_iff.1 hlead) (.inr rfl)
      · rw [body, hhead.opcode]
        dsimp only
        rw [hoffset, String.toList_append, String.toList_append, List.append_assoc]
        rfl
      · intro hreread _
        have hlead' := after?_eq_some_iff.2 (Eq.refl ("getelementptr ".toList ++ i.typedText))
        have hgoal : parseLoad scope { opcode := .load } ("getelementptr ".toList ++ i.typedText) =
            .ok i := by
          rw [parseLoad, hlead']
          exact bind_eq_ok_iff.2 ⟨i, hreread.parse, expectSomeOperand_eq_ok_iff.2 ⟨hne, rfl⟩⟩
        exact hgoal
  · next hlead =>
      obtain ⟨i, hparse, h'⟩ := bind_eq_ok_iff.1 h'
      obtain ⟨hcount, rfl⟩ := expectOperands_eq_ok_iff.1 h'
      have hhead := keepsHead_parseTyped hparse
      have hoffset : i.offsetLoad = false := hhead.offsetLoad
      have hne : i.operands ≠ [] := by
        rw [← List.length_pos_iff, hcount]
        decide
      apply rereadRest_typed [] hparse hhead.opcode (by decide) hform hne rfl (.inl rfl)
      · rw [body, hhead.opcode]
        dsimp only
        rw [hoffset, String.toList_append, String.toList_append, List.append_assoc]
        rfl
      · intro hreread hreserved
        have hlead' : after? "getelementptr ".toList i.typedText = none :=
          hreread.lead_eq_none (w := "getelementptr".toList) (by decide) hne hreserved hrest hlead
        have hgoal : parseLoad scope { opcode := .load } i.typedText = .ok i := by
          rw [parseLoad, hlead']
          exact bind_eq_ok_iff.2 ⟨i, hreread.parse, expectOperands_eq_ok_iff.2 ⟨hcount, rfl⟩⟩
        exact hgoal

theorem rereadRest_getElementPtr (hrest : rest.head?.all (!isBlank ·) = true)
    (h : parseRest scope .getElementPtr rest = .ok i) (hform : i.hasRegularForm = true) :
    RereadRest scope .getElementPtr rest i := by
  have h' : parseGetElementPtr scope { opcode := .getElementPtr } rest = .ok i := h
  unfold parseGetElementPtr at h'
  split at h'
  · next s hlead =>
      obtain ⟨i, hparse, h'⟩ := bind_eq_ok_iff.1 h'
      obtain ⟨hne, rfl⟩ := expectSomeOperand_eq_ok_iff.1 h'
      have hhead := keepsHead_parseTyped hparse
      have hinbounds : i.inbounds = true := hhead.inbounds
      apply rereadRest_typed _ hparse hhead.opcode (by decide) hform hne
        (after?_eq_some_iff.1 hlead) (.inr rfl)
      · rw [body, hhead.opcode]
        dsimp only
        rw [hinbounds, String.toList_append, String.toList_append, List.append_assoc]
        rfl
      · intro hreread _
        have hlead' := after?_eq_some_iff.2 (Eq.refl ("inbounds ".toList ++ i.typedText))
        have hgoal : parseGetElementPtr scope { opcode := .getElementPtr }
            ("inbounds ".toList ++ i.typedText) = .ok i := by
          rw [parseGetElementPtr, hlead']
          exact bind_eq_ok_iff.2 ⟨i, hreread.parse, expectSomeOperand_eq_ok_iff.2 ⟨hne, rfl⟩⟩
        exact hgoal
  · next hlead =>
      obtain ⟨i, hparse, h'⟩ := bind_eq_ok_iff.1 h'
      obtain ⟨hne, rfl⟩ := expectSomeOperand_eq_ok_iff.1 h'
      have hhead := keepsHead_parseTyped hparse
      have hinbounds : i.inbounds = false := hhead.inbounds
      apply rereadRest_typed [] hparse hhead.opcode (by decide) hform hne rfl (.inl rfl)
      · rw [body, hhead.opcode]
        dsimp only
        rw [hinbounds, String.toList_append, String.toList_append, List.append_assoc]
        rfl
      · intro hreread hreserved
        have hlead' : after? "inbounds ".toList i.typedText = none :=
          hreread.lead_eq_none (w := "inbounds".toList) (by decide) hne hreserved hrest hlead
        have hgoal : parseGetElementPtr scope { opcode := .getElementPtr } i.typedText = .ok i := by
          rw [parseGetElementPtr, hlead']
          exact bind_eq_ok_iff.2 ⟨i, hreread.parse, expectSomeOperand_eq_ok_iff.2 ⟨hne, rfl⟩⟩
        exact hgoal

/-! ## Operands that share a type -/

/-- A plain operand is written without its type. -/
theorem rereadShared_plain {type : String} {arg : List Char} {v : Value}
    (h : Value.parse scope arg type = .ok v) (hv : v.isRegular = true)
    (hplain : v.isPlain = true) : RereadShared scope type arg v.text.toList v := by
  rw [Value.isPlain, Bool.and_eq_true, Bool.not_eq_true', Bool.not_eq_true'] at hplain
  apply rereadShared_text h hv hplain.2
  intro hlabel
  rw [hplain.1] at hlabel
  cases hlabel

/-- Operands behind their type, and the suffixes. -/
def sharedText (i : Instruction) (type : String) : List Char :=
  type.toList ++ ' ' :: [',', ' '].intercalate ((i.operands.map fun v => v.text.toList) ++
    i.suffixes)

theorem parseShared_reread_plain (h : parseShared scope i rest = .ok i')
    (hne : i'.operands ≠ []) (hv : ∀ v ∈ i'.operands, v.isRegular = true)
    (hplain : ∀ v ∈ i'.operands, v.isPlain = true) :
    ∃ type, i'.type = some type ∧ Rewrites rest (i'.sharedText type) ∧
      parseShared scope i (i'.sharedText type) = .ok i' :=
  parseShared_reread h hne fun _ _ v _ hmem hparse =>
    rereadShared_plain hparse (hv v hmem) (hplain v hmem)

theorem toList_shared {type : String} (hne : i.operands ≠ []) :
    (type ++ " " ++ bareList i.operands).toList ++ i.suffixText.toList = i.sharedText type := by
  rw [String.toList_append, String.toList_append, toList_bareList, sharedText,
    intercalate_append_suffixes (by simpa using hne), List.append_assoc, List.append_assoc]
  rfl

theorem rereadRest_copy (h : parseRest scope .copy rest = .ok i)
    (hv : ∀ v ∈ i.operands, v.isRegular = true) (hform : i.hasRegularForm = true) :
    RereadRest scope .copy rest i := by
  obtain ⟨i, hparse, h⟩ := bind_eq_ok_iff.1 h
  obtain ⟨hcount, rfl⟩ := expectOperands_eq_ok_iff.1 h
  have hop : i.opcode = .copy := (keepsHead_parseShared hparse).opcode
  have hne : i.operands ≠ [] := by
    rw [← List.length_pos_iff, hcount]
    decide
  rw [hasRegularForm, hop, List.all_eq_true] at hform
  obtain ⟨type, htype, hrewrites, hagain⟩ := parseShared_reread_plain hparse hne hv hform
  refine ⟨i.sharedText type, ?_, hrewrites, ?_⟩
  · rw [body, hop, htype, ← toList_shared hne]
    simp only [String.append_assoc, String.toList_append, List.append_assoc]
    rfl
  · exact bind_eq_ok_iff.2 ⟨i, hagain, expectOperands_eq_ok_iff.2 ⟨hcount, rfl⟩⟩

theorem flagText_eq (flags : List String) :
    (String.join (flags.map (· ++ " "))).toList = flagText flags := by
  rw [String.toList_join, List.flatMap_map, flagText]
  simp only [String.toList_append]
  rfl

theorem rereadRest_binary {bop : BinaryOp}
    (h : parseRest scope (.binary bop) rest = .ok i)
    (hv : ∀ v ∈ i.operands, v.isRegular = true) (hform : i.hasRegularForm = true) :
    RereadRest scope (.binary bop) rest i := by
  obtain ⟨i, hparse, h⟩ := bind_eq_ok_iff.1 h
  obtain ⟨hcount, rfl⟩ := expectOperands_eq_ok_iff.1 h
  have hop : i.opcode = .binary bop := (keepsHead_parseShared hparse).opcode
  have hflags : i.flags = (takeFlags rest).1 := flags_parseShared hparse
  obtain ⟨hnoflag, hallflags, hkeeps, hcolon⟩ := takeFlags_spec rest
  have hne : i.operands ≠ [] := by
    rw [← List.length_pos_iff, hcount]
    decide
  rw [hasRegularForm, hop, List.all_eq_true] at hform
  obtain ⟨type, htype, hrewrites, hagain⟩ := parseShared_reread_plain hparse hne hv hform
  have hnoflag' : isWrapFlag (nextToken (i.sharedText type)).1 = false := by
    cases hflag : isWrapFlag (nextToken (i.sharedText type)).1 with
    | false => rfl
    | true =>
        rw [isWrapFlag_of_parseShared hparse htype hflag] at hnoflag
        cases hnoflag
  have htake := takeFlags_flagText hallflags hnoflag' hrewrites.solid
  refine ⟨flagText (takeFlags rest).1 ++ i.sharedText type, ?_, ⟨?_, ?_, ?_⟩, ?_⟩
  · rw [body, hop, htype, ← hflags, ← toList_shared hne, ← flagText_eq]
    simp only [String.append_assoc, String.toList_append, List.append_assoc]
    rfl
  · exact solid_flagText hallflags hrewrites.solid
  · exact hkeeps.trans ((Keeps.refl _).append hrewrites.keeps)
  · intro hend
    exact hcolon (hrewrites.colon (hend.of_append hrewrites.solid.squeeze_ne_nil))
  · have hgoal : parseBinary scope { opcode := .binary bop }
        (flagText (takeFlags rest).1 ++ i.sharedText type) = .ok i := by
      rw [parseBinary, htake]
      exact bind_eq_ok_iff.2 ⟨i, hagain, expectOperands_eq_ok_iff.2 ⟨hcount, rfl⟩⟩
    exact hgoal

/-! ## Comparisons -/

theorem parseCompare_eq_ok_iff {count : Nat} :
    parseCompare scope i rest count = .ok i' ↔
      ∃ p i₁, Predicate.ofKeyword? (String.ofList (nextToken rest).1) = some p ∧
        parseShared scope { i with predicate := some p } (nextToken rest).2 = .ok i₁ ∧
        i₁.operands.length = count ∧
        i' = { i₁ with operands := exchangeTargets i₁.operands } := by
  unfold parseCompare
  constructor
  · intro h
    dsimp only at h
    split at h
    · cases h
    · next p hp =>
        obtain ⟨i₁, hparse, hrest⟩ := bind_eq_ok_iff.1 h
        obtain ⟨_, hexpect, hi⟩ := bind_eq_ok_iff.1 hrest
        obtain ⟨hcount, rfl⟩ := expectOperands_eq_ok_iff.1 hexpect
        exact ⟨p, _, hp, hparse, hcount, (Except.ok.inj hi).symm⟩
  · rintro ⟨p, i₁, hp, hparse, hcount, rfl⟩
    dsimp only
    rw [hp]
    exact bind_eq_ok_iff.2 ⟨i₁, hparse, bind_eq_ok_iff.2
      ⟨i₁, expectOperands_eq_ok_iff.2 ⟨hcount, rfl⟩, rfl⟩⟩

/-- A predicate in front of what the operands are written as. -/
theorem parseCompare_reread {count : Nat} {p : Predicate} {i₁ : Instruction} {x : List Char}
    (hp : Predicate.ofKeyword? (String.ofList (nextToken rest).1) = some p)
    (hcount : i₁.operands.length = count) (hrewrites : Rewrites (nextToken rest).2 x)
    (hagain : parseShared scope { i with predicate := some p } x = .ok i₁) :
    Rewrites rest (p.keyword.toList ++ ' ' :: x) ∧
      parseCompare scope i (p.keyword.toList ++ ' ' :: x) count =
        .ok { i₁ with operands := exchangeTargets i₁.operands } := by
  have hkeyword : p.keyword.toList = (nextToken rest).1 := by
    rw [Predicate.keyword_of_ofKeyword? hp, String.toList_ofList]
  have hne : (nextToken rest).1 ≠ [] := by
    rw [← hkeyword]
    cases p <;> decide
  rw [hkeyword]
  refine ⟨hrewrites.word hne, parseCompare_eq_ok_iff.2 ⟨p, i₁, ?_, ?_, hcount, rfl⟩⟩
  all_goals rw [nextToken_space (unbroken_nextToken rest) hne hrewrites.solid.head_all]
  · exact hp
  · exact hagain

theorem rereadRest_icmp (h : parseRest scope .icmp rest = .ok i)
    (hv : ∀ v ∈ i.operands, v.isRegular = true) (hform : i.hasRegularForm = true) :
    RereadRest scope .icmp rest i := by
  obtain ⟨p, i₁, hp, hparse, hcount, hi⟩ := parseCompare_eq_ok_iff.1 h
  obtain ⟨lhs, rhs, hpair⟩ := List.length_eq_two.1 hcount
  have hswap : exchangeTargets i₁.operands = i₁.operands := by
    rw [hpair]
    rfl
  obtain rfl : i = i₁ := by rw [hi, hswap]
  have hhead := keepsHead_parseShared hparse
  have hop : i.opcode = .icmp := hhead.opcode
  have hpredicate : i.predicate = some p := hhead.predicate
  have hne : i.operands ≠ [] := by
    rw [hpair]
    exact List.cons_ne_nil _ _
  rw [hasRegularForm, hop, List.all_eq_true] at hform
  obtain ⟨type, htype, hrewrites, hagain⟩ := parseShared_reread_plain hparse hne hv hform
  obtain ⟨hrewrites', hagain'⟩ := parseCompare_reread hp hcount hrewrites hagain
  rw [hswap] at hagain'
  refine ⟨p.keyword.toList ++ ' ' :: i.sharedText type, ?_, hrewrites', hagain'⟩
  rw [body, hop, htype, predicateText, hpredicate, ← toList_shared hne]
  simp only [String.append_assoc, String.toList_append, List.append_assoc]
  rfl

/-! ## Branches -/

/-- A target with the word `label` in front, another operand without its type. -/
def branchText (v : Value) : List Char :=
  if v.isLabel then v.typedText.toList else v.text.toList

theorem rereadShared_branchText {type : String} {arg : List Char} {v : Value}
    (h : Value.parse scope arg type = .ok v) (hv : v.isRegular = true)
    (hplain : v.isLabel = true ∨ v.isPlain = true) :
    RereadShared scope type arg (branchText v) v := by
  unfold branchText
  split
  · next hlabel => exact rereadShared_target h hlabel
  · next hlabel => exact rereadShared_plain h hv (hplain.resolve_left hlabel)

theorem branchText_of_plain {v : Value} (hv : v.isPlain = true) :
    branchText v = v.text.toList := by
  rw [Value.isPlain, Bool.and_eq_true, Bool.not_eq_true'] at hv
  rw [branchText, hv.1]
  rfl

theorem branchText_of_label {v : Value} (hv : v.isLabel = true) :
    branchText v = v.typedText.toList := by
  rw [branchText, if_pos hv]

/-- Exchanging its targets back, each operand of a branch is read from what it is written as. -/
theorem rereadShared_branch {i₁ : Instruction} {type : String} {arg : List Char} {v : Value}
    (hi : i = { i₁ with operands := exchangeTargets i₁.operands })
    (hv : ∀ v ∈ i.operands, v.isRegular = true)
    (hforms : ∀ v ∈ i.operands, v.isLabel = true ∨ v.isPlain = true)
    (hmem : v ∈ i₁.operands) (h : Value.parse scope arg type = .ok v) :
    RereadShared scope type arg (branchText v) v := by
  have hmem' : v ∈ i.operands := by
    rw [hi]
    exact mem_exchangeTargets.2 hmem
  exact rereadShared_branchText h (hv v hmem') (hforms v hmem')

theorem rereadRest_brIcmp (h : parseRest scope .brIcmp rest = .ok i)
    (hv : ∀ v ∈ i.operands, v.isRegular = true) (hform : i.hasRegularForm = true) :
    RereadRest scope .brIcmp rest i := by
  obtain ⟨p, i₁, hp, hparse, hcount, hi⟩ := parseCompare_eq_ok_iff.1 h
  have hhead := keepsHead_parseShared hparse
  have hop : i.opcode = .brIcmp := by
    rw [hi]
    exact hhead.opcode
  have hpredicate : i.predicate = some p := by
    rw [hi]
    exact hhead.predicate
  obtain ⟨lhs, rhs, whenTrue, whenFalse, hfour⟩ := List.length_eq_four.1 hcount
  have hoperands : i.operands = [lhs, rhs, whenFalse, whenTrue] := by
    rw [hi, hfour]
    rfl
  simp only [hasRegularForm, hop, hoperands, Bool.and_eq_true] at hform
  obtain ⟨⟨⟨hlhs, hrhs⟩, hfalse⟩, htrue⟩ := hform
  have hforms : ∀ v ∈ i.operands, v.isLabel = true ∨ v.isPlain = true := by
    rw [hoperands]
    simp [hlhs, hrhs, hfalse, htrue]
  have hne : i₁.operands ≠ [] := by
    rw [hfour]
    exact List.cons_ne_nil _ _
  obtain ⟨type, htype, hrewrites, hagain⟩ := parseShared_reread hparse hne
    fun _ _ _ _ hmem hv' => rereadShared_branch hi hv hforms hmem hv'
  obtain ⟨hrewrites', hagain'⟩ := parseCompare_reread hp hcount hrewrites hagain
  rw [← hi] at hagain'
  refine ⟨_, ?_, hrewrites', hagain'⟩
  have htype' : i.type = some type := by rw [hi, htype]
  have hsuffixes : i₁.suffixText = i.suffixText := by
    rw [hi]
    rfl
  have htexts : i₁.operands.map branchText = [lhs.text.toList, rhs.text.toList,
      whenTrue.typedText.toList, whenFalse.typedText.toList] := by
    rw [hfour, ← branchText_of_plain hlhs, ← branchText_of_plain hrhs,
      ← branchText_of_label htrue, ← branchText_of_label hfalse]
    rfl
  rw [intercalate_append_suffixes (by simp [hfour]), hsuffixes, htexts, body, hop, hoperands,
    htype', predicateText, hpredicate]
  simp [toList_bareList, toList_typedList, Opcode.keyword]

theorem parseBr_eq_ok_iff :
    parseBr scope i rest = .ok i' ↔
      ∃ i₁, parseShared scope i rest = .ok i₁ ∧
        (i₁.operands.length = 1 ∨ i₁.operands.length = 3) ∧
        i' = { i₁ with operands := exchangeTargets i₁.operands } := by
  unfold parseBr
  constructor
  · intro h
    obtain ⟨i₁, hparse, h⟩ := bind_eq_ok_iff.1 h
    refine ⟨i₁, hparse, ?_⟩
    split at h
    · next hcount => exact ⟨.inl hcount, (Except.ok.inj h).symm⟩
    · next hcount => exact ⟨.inr hcount, (Except.ok.inj h).symm⟩
    · cases h
  · rintro ⟨i₁, hparse, hcount, rfl⟩
    apply bind_eq_ok_iff.2
    refine ⟨i₁, hparse, ?_⟩
    rcases hcount with hcount | hcount
    all_goals
      rw [hcount]
      rfl

/-- Plain operands carry the type in front of them. -/
theorem type_of_parseShared {type : String} (h : parseShared scope i rest = .ok i')
    (htype : i'.type = some type) {v : Value} (hmem : v ∈ i'.operands)
    (hv : v.isRegular = true) (hplain : v.isPlain = true) : v.type = type := by
  obtain ⟨t, args, parts, i₁, args', -, -, hsuffixes, hoperands, hi⟩ := parseShared_eq_ok_iff.1 h
  have htype' : type = String.ofList t := by
    rw [hi, (takesSuffixes_of_eq_ok hsuffixes).eq] at htype
    exact (Option.some.inj htype).symm
  have hall := forall_mem_of_forall₂ (P := fun v => v.isRegular = true → v.isPlain = true →
    v.type = type) (hoperands.imp fun a v hparse hv hplain => by
      rw [htype']
      exact (Value.reread_of_parse hparse hv).type_eq hplain)
  exact hall v hmem hv hplain

theorem not_isMetadata_of_isLabel {v : Value} (h : v.isLabel = true) : v.isMetadata = false := by
  cases v with
  | label n => rfl
  | _ => cases h

theorem typedText_of_isLabel {v : Value} (h : v.isLabel = true) :
    v.typedText.toList = TypeToken.label.toList ++ ' ' :: v.text.toList := by
  rw [Value.typedText_eq (not_isMetadata_of_isLabel h)]
  cases v with
  | label n => rfl
  | _ => cases h

theorem typedText_of_isPlain {v : Value} (hplain : v.isPlain = true) :
    v.typedText.toList = v.type.toList ++ ' ' :: v.text.toList := by
  rw [Value.isPlain, Bool.and_eq_true, Bool.not_eq_true', Bool.not_eq_true'] at hplain
  exact Value.typedText_eq hplain.2

theorem rereadRest_br_label {target : Value}
    (hparse : parseShared scope { opcode := .br } rest = .ok i) (hone : i.operands = [target])
    (hv : target.isRegular = true) (hform : i.hasRegularForm = true) :
    RereadRest scope .br rest i := by
  have hop : i.opcode = .br := (keepsHead_parseShared hparse).opcode
  simp only [hasRegularForm, hop, hone, Bool.and_eq_true, beq_iff_eq] at hform
  obtain ⟨hlabel, hlabelType⟩ := hform
  have hwrite : ∀ t arg v, i.type = some t → v ∈ i.operands →
      Value.parse scope arg t = .ok v → RereadShared scope t arg v.text.toList v := by
    intro t arg v ht hmem hparse
    rw [hone] at hmem
    obtain rfl := List.mem_singleton.1 hmem
    refine rereadShared_text hparse hv (not_isMetadata_of_isLabel hlabel) fun _ => ?_
    rw [hlabelType] at ht
    exact (Option.some.inj ht).symm
  obtain ⟨type, htype, hrewrites, hagain⟩ := parseShared_reread hparse (by simp [hone]) hwrite
  refine ⟨_, ?_, hrewrites, parseBr_eq_ok_iff.2 ⟨i, hagain, .inl (by simp [hone]), ?_⟩⟩
  · rw [hlabelType] at htype
    obtain rfl := Option.some.inj htype
    rw [intercalate_append_suffixes (by simp [hone]), body, hop, hone]
    simp [toList_typedList, typedText_of_isLabel hlabel, Opcode.keyword]
  · rw [hone]
    exact congrArg (fun operands => { i with operands }) hone

theorem rereadRest_br_condition {i₁ : Instruction} {condition whenTrue whenFalse : Value}
    (hparse : parseShared scope { opcode := .br } rest = .ok i₁)
    (hthree : i₁.operands = [condition, whenTrue, whenFalse])
    (hi : i = { i₁ with operands := exchangeTargets i₁.operands })
    (hv : ∀ v ∈ i.operands, v.isRegular = true) (hform : i.hasRegularForm = true) :
    RereadRest scope .br rest i := by
  have hop : i.opcode = .br := by
    rw [hi]
    exact (keepsHead_parseShared hparse).opcode
  have hoperands : i.operands = [condition, whenFalse, whenTrue] := by
    rw [hi, hthree]
    rfl
  have hsuffixes : i₁.suffixText = i.suffixText := by
    rw [hi]
    rfl
  simp only [hasRegularForm, hop, hoperands, Bool.and_eq_true] at hform
  obtain ⟨⟨hcondition, hfalse⟩, htrue⟩ := hform
  have hforms : ∀ v ∈ i.operands, v.isLabel = true ∨ v.isPlain = true := by
    rw [hoperands]
    simp [hcondition, hfalse, htrue]
  obtain ⟨type, htype, hrewrites, hagain⟩ := parseShared_reread hparse (by simp [hthree])
    fun _ _ _ _ hmem hv' => rereadShared_branch hi hv hforms hmem hv'
  refine ⟨_, ?_, hrewrites, parseBr_eq_ok_iff.2 ⟨i₁, hagain, .inr (by simp [hthree]), hi⟩⟩
  have hcondition_type := type_of_parseShared hparse htype (v := condition) (by simp [hthree])
    (hv condition (by simp [hoperands])) hcondition
  have htexts : i₁.operands.map branchText = [condition.text.toList,
      whenTrue.typedText.toList, whenFalse.typedText.toList] := by
    rw [hthree, ← branchText_of_plain hcondition, ← branchText_of_label htrue,
      ← branchText_of_label hfalse]
    rfl
  rw [intercalate_append_suffixes (by simp [hthree]), hsuffixes, htexts, body, hop, hoperands]
  simp [toList_typedList, typedText_of_isPlain hcondition, hcondition_type, Opcode.keyword]

theorem rereadRest_br (h : parseRest scope .br rest = .ok i)
    (hv : ∀ v ∈ i.operands, v.isRegular = true) (hform : i.hasRegularForm = true) :
    RereadRest scope .br rest i := by
  obtain ⟨i₁, hparse, hcount, hi⟩ := parseBr_eq_ok_iff.1 h
  rcases hcount with hcount | hcount
  · obtain ⟨target, hone⟩ := List.length_eq_one_iff.1 hcount
    have hsame : i = i₁ := by
      rw [hi, hone]
      exact congrArg (fun operands => { i₁ with operands }) hone.symm
    subst hsame
    exact rereadRest_br_label hparse hone (hv target (by simp [hone])) hform
  · obtain ⟨condition, whenTrue, whenFalse, hthree⟩ := List.length_eq_three.1 hcount
    exact rereadRest_br_condition hparse hthree hi hv hform

/-! ## The other opcodes -/

theorem take_of_parseShared {type : String} (h : parseShared scope i rest = .ok i')
    (htype : i'.type = some type) : ∃ arg, TypeToken.take rest = .ok (type.toList, arg) := by
  obtain ⟨t, arg, parts, i₁, args', htake, -, hsuffixes, -, hi⟩ := parseShared_eq_ok_iff.1 h
  rw [hi, (takesSuffixes_of_eq_ok hsuffixes).eq] at htype
  obtain rfl := Option.some.inj htype
  rw [String.toList_ofList]
  exact ⟨arg, htake⟩

theorem rereadRest_ret (h : parseRest scope .ret rest = .ok i)
    (hv : ∀ v ∈ i.operands, v.isRegular = true) (hform : i.hasRegularForm = true) :
    RereadRest scope .ret rest i := by
  have hop : i.opcode = .ret := (keepsHead_parseRet h).opcode
  rw [hasRegularForm, hop, List.all_eq_true] at hform
  obtain ⟨t, args, htake, ⟨rfl, parts, hargs, hsuffixes⟩ | ⟨hvoid, hparse, hcount⟩⟩ :=
    parseRet_eq_ok_iff.1 h
  · obtain ⟨hrewrites, hagain⟩ := parseRet_void_reread htake hargs hsuffixes
    refine ⟨_, ?_, hrewrites, hagain⟩
    have heq := (takesSuffixes_of_eq_ok hsuffixes).eq
    have hoperands : i.operands = [] := by rw [heq]
    have htype : i.type = some TypeToken.void := by rw [heq]
    rw [body, hop, hoperands, htype]
    simp [Opcode.keyword]
  · obtain ⟨v, hone⟩ := List.length_eq_one_iff.1 hcount
    have hne : i.operands ≠ [] := by
      rw [hone]
      exact List.cons_ne_nil _ _
    obtain ⟨type, htype, hrewrites, hagain⟩ := parseShared_reread_plain hparse hne hv hform
    have hmem : v ∈ i.operands := by
      rw [hone]
      exact List.mem_singleton_self v
    have htyped := typedText_of_isPlain (hform v hmem)
    rw [type_of_parseShared hparse htype hmem (hv v hmem) (hform v hmem)] at htyped
    refine ⟨i.sharedText type, ?_, hrewrites, ?_⟩
    · rw [← toList_shared hne, body, hop, hone]
      simp [toList_typedList, toList_bareList, htyped, Opcode.keyword]
    · obtain ⟨arg, htake'⟩ := take_of_parseShared hparse htype
      obtain ⟨arg', htake''⟩ := take_of_parseShared hagain htype
      rw [htake'] at htake
      obtain ⟨rfl, -⟩ := Prod.mk.inj (Except.ok.inj htake)
      exact parseRet_eq_ok_iff.2 ⟨_, arg', htake'', .inr ⟨hvoid, hagain, hcount⟩⟩

theorem toList_incomingText (i : Instruction) :
    i.incomingText.toList = [',', ' '].intercalate i.pairTexts := by
  rw [incomingText, String.toList_intercalate, List.map_map, pairTexts]
  congr 1
  apply List.map_congr_left
  intro p _
  simp [pairText]

theorem rereadRest_phi (h : parseRest scope .phi rest = .ok i)
    (hv : ∀ v ∈ i.inputs, v.isRegular = true) (hform : i.hasRegularForm = true) :
    RereadRest scope .phi rest i := by
  have hop : i.opcode = .phi := (keepsHead_parsePhi h).opcode
  rw [hasRegularForm, hop, List.all_eq_true] at hform
  have hincoming : ∀ p ∈ i.incoming, p.1.isRegular = true ∧ p.1.isPlain = true := fun p hp =>
    ⟨hv p.1 (List.mem_append_right _ (List.mem_map_of_mem hp)), hform p hp⟩
  obtain ⟨type, htype, hrewrites, hagain⟩ := parsePhi_reread h hincoming
  refine ⟨_, ?_, hrewrites, hagain⟩
  have hne : i.pairTexts ≠ [] := by
    obtain ⟨t, args, parts, i₁, args', -, -, -, -, hne, -⟩ := parsePhi_eq_ok_iff.1 h
    rw [pairTexts]
    simpa using hne
  rw [intercalate_append_suffixes hne, ← toList_incomingText, body, hop, htype]
  simp [Opcode.keyword]

theorem rereadRest_cast {cop : CastOp} (h : parseRest scope (.cast cop) rest = .ok i)
    (hv : ∀ v ∈ i.operands, v.isRegular = true) (hform : i.hasRegularForm = true) :
    RereadRest scope (.cast cop) rest i := by
  have hop : i.opcode = .cast cop := (keepsHead_parseCast h).opcode
  simp only [hasRegularForm, hop, Bool.and_eq_true, List.all_eq_true] at hform
  have hto : ∀ type, i.castType = some type → after? "to ".toList type.toList = none := by
    intro type htype
    rw [htype] at hform
    exact Option.isNone_iff_eq_none.1 hform.2
  obtain ⟨type, v, destination, htype, hone, hcast, hrewrites, hagain⟩ :=
    parseCast_reread h (fun v hmem => ⟨hv v hmem, hform.1 v hmem⟩) hto
  refine ⟨_, ?_, hrewrites, hagain⟩
  rw [← List.singleton_append (x := conversionText v destination.toList),
    intercalate_append_suffixes (List.cons_ne_nil _ _), body, hop, htype, hone, hcast]
  simp [toList_bareList, conversionText, Opcode.keyword]

theorem rereadRest_alloca (h : parseRest scope .alloca rest = .ok i)
    (hform : i.hasRegularForm = true) : RereadRest scope .alloca rest i := by
  have hop : i.opcode = .alloca := (keepsHead_parseAlloca h).opcode
  simp only [hasRegularForm, hop, Bool.and_eq_true, Bool.not_eq_true'] at hform
  obtain ⟨⟨hregular, hend⟩, htype⟩ := hform
  have hne : ∀ t, i.type = some t → t ≠ "" ∧ t.toList.getLast? ≠ some ':' := by
    intro t ht
    rw [ht, Option.any_some, Bool.and_eq_true, bne_iff_ne, Bool.not_eq_true', endsWith] at htype
    exact ⟨htype.1, by simpa using htype.2⟩
  obtain ⟨type, htype', hrewrites, hagain⟩ := parseAlloca_reread h ⟨rfl, rfl⟩ hregular hend hne
  refine ⟨_, ?_, hrewrites, hagain⟩
  rw [body, hop, htype', allocaTail, List.flatMap_append, ← suffixText_eq]
  simp [String.toList_join, List.flatMap_map, Opcode.keyword]

theorem rereadRest_call (h : parseRest scope .call rest = .ok i)
    (hv : ∀ v ∈ i.operands, v.isRegular = true) (hform : i.hasRegularForm = true) :
    RereadRest scope .call rest i := by
  have hhead := keepsHead_parseCall h
  have hop : i.opcode = .call := hhead.opcode
  have htail : i.tail = false := hhead.tail
  simp only [hasRegularForm, hop, Bool.and_eq_true, List.all_eq_true, Bool.not_eq_true'] at hform
  have hflags : ∀ f ∈ i.flags, f.toList.getLast? ≠ some ':' := by
    intro f hf
    have hcolon := hform.2 f hf
    rw [endsWith] at hcolon
    simpa using hcolon
  obtain ⟨type, args, callee, htype, hoperands, hcallee, hrewrites, hagain⟩ :=
    parseCall_reread h (fun v hmem => hv v (List.dropLast_subset _ hmem)) hflags
  refine ⟨_, ?_, hrewrites, hagain⟩
  have hshown : (if TypeToken.isVariadic callee.type then callee.type else type) = type := by
    rcases hcallee with hcallee | hcallee
    · rw [hcallee, ite_self]
    · rw [hcallee]
      rfl
  have hflagText : (String.join (i.flags.map (" " ++ ·))).toList =
      i.flags.flatMap fun f => ' ' :: f.toList := by
    rw [String.toList_join, List.flatMap_map]
    simp only [String.toList_append]
    rfl
  rw [body, hop, htype]
  dsimp only [Option.getD_some]
  rw [callText, hoperands, htail, List.getLast?_append, List.dropLast_concat, String.toList_append,
    hflagText, callTail]
  dsimp only [Option.some_or, List.getLast?_singleton]
  rw [hshown]
  simp [toList_typedList, wordIf, Opcode.keyword, Value.listText]

theorem parseUnreachable_eq_ok_iff :
    parseRest scope .unreachable rest = .ok i ↔ rest = [] ∧ i = { opcode := .unreachable } := by
  simp only [parseRest]
  cases rest with
  | nil => simp [eq_comm]
  | cons c s => simp

/-- An instruction of which nothing in front of its opcode was read yet. -/
def IsFresh (op : Opcode) (i : Instruction) : Prop :=
  i.result = none ∧ i.opcode = op ∧ i.tail = false ∧ i.comment = none

theorem KeepsHead.isFresh (h : KeepsHead i i') (hi : IsFresh op i) : IsFresh op i' := by
  rw [IsFresh, h.result, h.opcode, h.tail, h.comment]
  exact hi

theorem isFresh_parseRest (h : parseRest scope op rest = .ok i) : IsFresh op i := by
  cases op with
  | load =>
      have h' : parseLoad scope { opcode := .load } rest = .ok i := h
      unfold parseLoad at h'
      split at h'
      · obtain ⟨i, hparse, h'⟩ := bind_eq_ok_iff.1 h'
        obtain ⟨-, rfl⟩ := expectSomeOperand_eq_ok_iff.1 h'
        exact (keepsHead_parseTyped hparse).isFresh ⟨rfl, rfl, rfl, rfl⟩
      · obtain ⟨i, hparse, h'⟩ := bind_eq_ok_iff.1 h'
        obtain ⟨-, rfl⟩ := expectOperands_eq_ok_iff.1 h'
        exact (keepsHead_parseTyped hparse).isFresh ⟨rfl, rfl, rfl, rfl⟩
  | getElementPtr =>
      have h' : parseGetElementPtr scope { opcode := .getElementPtr } rest = .ok i := h
      unfold parseGetElementPtr at h'
      split at h'
      all_goals
        obtain ⟨i, hparse, h'⟩ := bind_eq_ok_iff.1 h'
        obtain ⟨-, rfl⟩ := expectSomeOperand_eq_ok_iff.1 h'
        exact (keepsHead_parseTyped hparse).isFresh ⟨rfl, rfl, rfl, rfl⟩
  | store =>
      obtain ⟨i, hparse, h⟩ := bind_eq_ok_iff.1 h
      obtain ⟨-, rfl⟩ := expectOperands_eq_ok_iff.1 h
      exact (keepsHead_parseTyped hparse).isFresh ⟨rfl, rfl, rfl, rfl⟩
  | copy | binary =>
      obtain ⟨i, hparse, h⟩ := bind_eq_ok_iff.1 h
      obtain ⟨-, rfl⟩ := expectOperands_eq_ok_iff.1 h
      exact (keepsHead_parseShared hparse).isFresh ⟨rfl, rfl, rfl, rfl⟩
  | icmp | brIcmp =>
      obtain ⟨p, i₁, -, hparse, -, rfl⟩ := parseCompare_eq_ok_iff.1 h
      have hfresh := (keepsHead_parseShared hparse).isFresh ⟨rfl, rfl, rfl, rfl⟩
      exact hfresh
  | br =>
      obtain ⟨i₁, hparse, -, rfl⟩ := parseBr_eq_ok_iff.1 h
      have hfresh := (keepsHead_parseShared hparse).isFresh ⟨rfl, rfl, rfl, rfl⟩
      exact hfresh
  | phi => exact (keepsHead_parsePhi h).isFresh ⟨rfl, rfl, rfl, rfl⟩
  | call => exact (keepsHead_parseCall h).isFresh ⟨rfl, rfl, rfl, rfl⟩
  | ret => exact (keepsHead_parseRet h).isFresh ⟨rfl, rfl, rfl, rfl⟩
  | alloca => exact (keepsHead_parseAlloca h).isFresh ⟨rfl, rfl, rfl, rfl⟩
  | cast => exact (keepsHead_parseCast h).isFresh ⟨rfl, rfl, rfl, rfl⟩
  | unreachable =>
      obtain ⟨-, rfl⟩ := parseUnreachable_eq_ok_iff.1 h
      exact ⟨rfl, rfl, rfl, rfl⟩

/-- What stands behind an opcode is read again, whatever the opcode. -/
theorem rereadRest (hrest : rest.head?.all (!isBlank ·) = true)
    (h : parseRest scope op rest = .ok i) (hv : ∀ v ∈ i.inputs, v.isRegular = true)
    (hform : i.hasRegularForm = true) :
    RereadRest scope op rest i ∨
      op = .unreachable ∧ rest = [] ∧ i = { opcode := .unreachable } := by
  have hoperands : ∀ v ∈ i.operands, v.isRegular = true := fun v hmem =>
    hv v (List.mem_append_left _ hmem)
  cases op with
  | load => exact .inl (rereadRest_load hrest h hform)
  | store => exact .inl (rereadRest_store h hform)
  | icmp => exact .inl (rereadRest_icmp h hoperands hform)
  | phi => exact .inl (rereadRest_phi h hv hform)
  | call => exact .inl (rereadRest_call h hoperands hform)
  | getElementPtr => exact .inl (rereadRest_getElementPtr hrest h hform)
  | br => exact .inl (rereadRest_br h hoperands hform)
  | brIcmp => exact .inl (rereadRest_brIcmp h hoperands hform)
  | ret => exact .inl (rereadRest_ret h hoperands hform)
  | alloca => exact .inl (rereadRest_alloca h hform)
  | unreachable => exact .inr ⟨rfl, parseUnreachable_eq_ok_iff.1 h⟩
  | copy => exact .inl (rereadRest_copy h hoperands hform)
  | binary bop => exact .inl (rereadRest_binary h hoperands hform)
  | cast cop => exact .inl (rereadRest_cast h hoperands hform)

end SsaIr.Instruction
