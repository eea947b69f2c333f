import SsaIr.Proofs.Instruction.Shape
import SsaIr.Proofs.Value.OneLine

/-!
# Instructions are written on one line

The parts of an instruction that was read are parts of its line, so no line break stands in them,
nor in the text of the instruction.
-/

namespace SsaIr

open Text

variable {scope : List String} {s : List Char} {type : String}

/-- No part of the instruction has a line break. -/
structure Instruction.OneLine (i : Instruction) : Prop where
  result : ∀ name ∈ i.result, '\n' ∉ name.toList
  type : ∀ t ∈ i.type, '\n' ∉ t.toList
  operands : ∀ v ∈ i.operands, v.OneLine
  incoming : ∀ p ∈ i.incoming, p.1.OneLine ∧ '\n' ∉ p.2.toList
  metadata : ∀ tag ∈ i.metadata, '\n' ∉ tag.toList
  flags : ∀ w ∈ i.flags, '\n' ∉ w.toList
  castType : ∀ t ∈ i.castType, '\n' ∉ t.toList

namespace Instruction

variable {i i' : Instruction} {op : Opcode} {rest code : List Char} {vs : List Value}

theorem newline_bareList (h : ∀ v ∈ vs, v.OneLine) : '\n' ∉ (bareList vs).toList := by
  rw [toList_bareList]
  exact newline_intercalate (List.forall_mem_map.2 fun v hv => (h v hv).text)

theorem newline_typedList (h : ∀ v ∈ vs, v.OneLine) : '\n' ∉ (typedList vs).toList := by
  rw [toList_typedList]
  exact newline_intercalate (List.forall_mem_map.2 fun v hv => (h v hv).typedText)

theorem newline_wordIf {condition : Bool} {word : String} (h : '\n' ∉ word.toList) :
    '\n' ∉ (wordIf condition word).toList := by
  unfold wordIf
  split
  · simpa using h
  · decide

theorem newline_predicateText (i : Instruction) : '\n' ∉ i.predicateText.toList := by
  unfold predicateText
  split
  · next p _ => cases p <;> decide
  · decide

namespace OneLine

theorem incomingText (h : i.OneLine) : '\n' ∉ i.incomingText.toList := by
  rw [toList_incomingText]
  refine newline_intercalate (List.forall_mem_map.2 fun p hp => ?_)
  obtain ⟨hvalue, hlabel⟩ := h.incoming p hp
  simp [pairText, hvalue.text, hlabel]

theorem typeText (h : i.OneLine) : '\n' ∉ (i.type.getD TypeToken.void).toList := by
  cases htype : i.type with
  | none => decide
  | some t => exact h.type t htype

theorem callText (h : i.OneLine) (htype : '\n' ∉ type.toList) :
    '\n' ∉ (i.callText type).toList := by
  have htail : '\n' ∉ (wordIf i.tail "tail").toList := newline_wordIf (by decide)
  unfold Instruction.callText
  cases hcallee : i.operands.getLast? with
  | none => simpa [htail, htype] using h.flags
  | some callee =>
      have hlast := h.operands callee (List.mem_of_getLast? hcallee)
      have hargs := newline_typedList fun v hv => h.operands v (List.dropLast_subset _ hv)
      have hshown :
          '\n' ∉ (if TypeToken.isVariadic callee.type then callee.type else type).toList := by
        split
        · exact hlast.type
        · exact htype
      simpa [htail, hlast.text, hargs, hshown] using h.flags

theorem suffixText (h : i.OneLine) : '\n' ∉ i.suffixText.toList := by
  have halign : ∀ n : UInt32, '\n' ∉ (toString n.toNat).toList := fun n =>
    newline_of_isIdentifier (isIdentifier_of_isNumeric (isNumeric_toString n.toNat))
  rw [Instruction.suffixText, String.toList_append, List.mem_append, not_or]
  constructor
  · cases i.alignment with
    | none => decide
    | some n => simpa using halign n
  · cases htag : i.metadata with
    | none => decide
    | some tag => simpa using h.metadata tag htag

theorem resultText (h : i.OneLine) : '\n' ∉ i.resultText.toList := by
  unfold Instruction.resultText
  cases hname : i.result with
  | none => decide
  | some name => simpa using h.result name hname

theorem body (h : i.OneLine) : '\n' ∉ i.body.toList := by
  have hkeyword : '\n' ∉ i.opcode.keyword.toList := newline_of_plain (unbroken_keyword i.opcode).2.2
  have htype := h.typeText
  have hbare := newline_bareList h.operands
  have htyped := newline_typedList h.operands
  have hpredicate := newline_predicateText i
  have hinbounds : '\n' ∉ (wordIf i.inbounds "inbounds").toList := newline_wordIf (by decide)
  have hoffset : '\n' ∉ (wordIf i.offsetLoad "getelementptr").toList := newline_wordIf (by decide)
  unfold Instruction.body
  dsimp only
  cases hop : i.opcode with
  | load => simp [hoffset, htyped]
  | store => simp [htyped]
  | getElementPtr => simp [hinbounds, htyped]
  | icmp => simp [hpredicate, htype, hbare]
  | brIcmp =>
      dsimp only
      split
      · next lhs rhs whenFalse whenTrue hoperands =>
          have hall := h.operands
          rw [hoperands] at hall
          have hsides : '\n' ∉ (bareList [lhs, rhs]).toList := newline_bareList (by simp_all)
          have htargets : '\n' ∉ (typedList [whenTrue, whenFalse]).toList :=
            newline_typedList (by simp_all)
          simp [hpredicate, htype, hsides, htargets]
      · simp [hpredicate, htype, hbare]
  | phi => simp [htype, h.incomingText]
  | call => exact h.callText htype
  | br =>
      dsimp only
      split
      · next condition whenFalse whenTrue hoperands =>
          have hall := h.operands
          rw [hoperands] at hall
          have hlist : '\n' ∉ (typedList [condition, whenTrue, whenFalse]).toList :=
            newline_typedList (by simp_all)
          simp [hlist]
      · simp [htyped]
  | ret =>
      dsimp only
      split <;> simp [htype, htyped]
  | alloca =>
      have hcounts : ∀ v ∈ i.operands, '\n' ∉ v.typedText.toList := fun v hv =>
        (h.operands v hv).typedText
      simpa [htype] using hcounts
  | unreachable => simp
  | copy => simp [htype, hbare]
  | binary op =>
      rw [hop] at hkeyword
      have hkeyword : '\n' ∉ op.keyword.toList := hkeyword
      simpa [hkeyword, htype, hbare] using h.flags
  | cast op =>
      rw [hop] at hkeyword
      have hkeyword : '\n' ∉ op.keyword.toList := hkeyword
      cases hcast : i.castType with
      | none => simp [hkeyword, htype, hbare]
      | some t => simp [hkeyword, htype, hbare, h.castType t hcast]

/-- The instruction is written on one line. -/
theorem text (h : i.OneLine) : '\n' ∉ i.text.toList := by
  rw [Instruction.text, String.toList_append, String.toList_append, List.mem_append,
    List.mem_append, not_or, not_or]
  exact ⟨⟨h.resultText, h.body⟩, h.suffixText⟩

end OneLine

/-! ## Reading instructions -/

theorem newline_of_mem_args {parts args : List (List Char)}
    (h : TakesSuffixes i i' parts args) (hparts : ∀ p ∈ parts, '\n' ∉ p) :
    ∀ a ∈ args, '\n' ∉ a := by
  obtain ⟨sources, rfl, -⟩ := h.sources
  exact fun a ha => hparts a (List.mem_append_left _ ha)

/-- Suffixes that were taken from parts of a line. -/
theorem oneLine_of_takeSuffixes {parts args : List (List Char)}
    (h : takeSuffixes i parts = .ok (i', args)) (hi : i.OneLine) (hparts : ∀ p ∈ parts, '\n' ∉ p) :
    i'.OneLine ∧ ∀ a ∈ args, '\n' ∉ a := by
  have htakes := takesSuffixes_of_eq_ok h
  refine ⟨?_, newline_of_mem_args htakes hparts⟩
  have hmetadata : ∀ tag ∈ i'.metadata, '\n' ∉ tag.toList := by
    unfold takeSuffixes at h
    dsimp only at h
    obtain ⟨p, -, h⟩ := bind_eq_ok_iff.1 h
    obtain ⟨rfl, -⟩ := Prod.mk.inj (Except.ok.inj h)
    rcases takeMetadata_cases parts with ⟨front, tag, rfl, htake⟩ | htake
    · rw [htake]
      rintro _ ⟨⟩
      rw [String.toList_ofList]
      exact hparts _ (List.mem_append_right _ List.mem_cons_self)
    · rw [htake]
      rintro _ ⟨⟩
  rw [htakes.eq]
  exact { hi with metadata := hmetadata }

theorem OneLine.with_type (h : i.OneLine) {t : List Char} (ht : '\n' ∉ t) :
    ({ i with type := some (String.ofList t) } : Instruction).OneLine := by
  refine { h with type := ?_ }
  rintro _ ⟨⟩
  rwa [String.toList_ofList]

theorem OneLine.with_operands (h : i.OneLine) (hvs : ∀ v ∈ vs, v.OneLine) :
    ({ i with operands := vs } : Instruction).OneLine := { h with operands := hvs }

theorem OneLine.exchangeTargets (h : i.OneLine) :
    ({ i with operands := Instruction.exchangeTargets i.operands } : Instruction).OneLine :=
  h.with_operands fun v hv => h.operands v (mem_exchangeTargets.1 hv)

theorem oneLine_of_parseShared (h : parseShared scope i rest = .ok i') (hi : i.OneLine)
    (hrest : '\n' ∉ rest) : i'.OneLine := by
  obtain ⟨t, args, parts, i₁, args', htake, hparts, hsuffixes, hoperands, heq⟩ :=
    parseShared_eq_ok_iff.1 h
  obtain ⟨ht, hargs⟩ := newline_of_take htake hrest
  obtain ⟨hi₁, hargs'⟩ := oneLine_of_takeSuffixes hsuffixes (hi.with_type ht)
    (newline_of_splitOperands hparts hargs)
  rw [heq]
  refine hi₁.with_operands (forall_mem_of_forall₂ (forall₂_imp_of_mem hoperands ?_))
  intro a v ha _ hv
  exact Value.oneLine_of_parse hv (hargs' a ha) (by rwa [String.toList_ofList])

theorem oneLine_of_parseTyped (h : parseTyped scope i rest = .ok i') (hi : i.OneLine)
    (hrest : '\n' ∉ rest) : i'.OneLine := by
  obtain ⟨parts, i₁, args', hparts, hsuffixes, hoperands, heq⟩ := parseTyped_eq_ok_iff.1 h
  obtain ⟨hi₁, hargs'⟩ := oneLine_of_takeSuffixes hsuffixes hi
    (newline_of_splitOperands hparts hrest)
  rw [heq]
  refine hi₁.with_operands (forall_mem_of_forall₂ (forall₂_imp_of_mem hoperands ?_))
  exact fun a v ha _ hv => Value.oneLine_of_parseTyped hv (hargs' a ha)

theorem newline_nextToken (hs : '\n' ∉ s) : '\n' ∉ (nextToken s).2 := by
  obtain ⟨a, g, -, -, hsplit⟩ := exists_nextToken s
  exact fun hmem => hs (hsplit ▸ List.mem_append_right _ hmem)

theorem newline_after? {lead : List Char} (h : after? lead s = some rest) (hs : '\n' ∉ s) :
    '\n' ∉ rest := fun hmem => hs (after?_eq_some_iff.1 h ▸ List.mem_append_right _ hmem)

theorem oneLine_of_parseCompare {count : Nat} (h : parseCompare scope i rest count = .ok i')
    (hi : i.OneLine) (hrest : '\n' ∉ rest) : i'.OneLine := by
  obtain ⟨p, i₁, -, hparse, -, rfl⟩ := parseCompare_eq_ok_iff.1 h
  exact (oneLine_of_parseShared hparse { hi with } (newline_nextToken hrest)).exchangeTargets

theorem oneLine_of_parseLoad (h : parseLoad scope i rest = .ok i') (hi : i.OneLine)
    (hrest : '\n' ∉ rest) : i'.OneLine := by
  unfold parseLoad at h
  split at h
  · next s hlead =>
      obtain ⟨i₁, hparse, h⟩ := bind_eq_ok_iff.1 h
      obtain ⟨-, rfl⟩ := expectSomeOperand_eq_ok_iff.1 h
      exact oneLine_of_parseTyped hparse { hi with } (newline_after? hlead hrest)
  · obtain ⟨i₁, hparse, h⟩ := bind_eq_ok_iff.1 h
    obtain ⟨-, rfl⟩ := expectOperands_eq_ok_iff.1 h
    exact oneLine_of_parseTyped hparse hi hrest

theorem oneLine_of_parseGetElementPtr (h : parseGetElementPtr scope i rest = .ok i')
    (hi : i.OneLine) (hrest : '\n' ∉ rest) : i'.OneLine := by
  unfold parseGetElementPtr at h
  split at h
  · next s hlead =>
      obtain ⟨i₁, hparse, h⟩ := bind_eq_ok_iff.1 h
      obtain ⟨-, rfl⟩ := expectSomeOperand_eq_ok_iff.1 h
      exact oneLine_of_parseTyped hparse { hi with } (newline_after? hlead hrest)
  · obtain ⟨i₁, hparse, h⟩ := bind_eq_ok_iff.1 h
    obtain ⟨-, rfl⟩ := expectSomeOperand_eq_ok_iff.1 h
    exact oneLine_of_parseTyped hparse hi hrest

theorem oneLine_of_parseIncoming {p : Value × String} {arg : List Char}
    (h : parseIncoming scope type arg = .ok p) (harg : '\n' ∉ arg) (htype : '\n' ∉ type.toList) :
    p.1.OneLine ∧ '\n' ∉ p.2.toList := by
  obtain ⟨inside, value, name, rfl, hparts, hname, hvalue⟩ := parseIncoming_eq_ok_iff.1 h
  have hinside : '\n' ∉ inside := fun hmem => harg (by simp [hmem])
  have hvalue' := newline_of_splitOperands hparts hinside value List.mem_cons_self
  exact ⟨Value.oneLine_of_parse hvalue hvalue' htype,
    newline_of_isIdentifier (sigilName?_eq_some hname).2⟩

theorem oneLine_of_parsePhi (h : parsePhi scope i rest = .ok i') (hi : i.OneLine)
    (hrest : '\n' ∉ rest) : i'.OneLine := by
  obtain ⟨t, args, parts, i₁, args', htake, hparts, hsuffixes, hincoming, -, heq⟩ :=
    parsePhi_eq_ok_iff.1 h
  obtain ⟨ht, hargs⟩ := newline_of_take htake hrest
  obtain ⟨hi₁, hargs'⟩ := oneLine_of_takeSuffixes hsuffixes (hi.with_type ht)
    (newline_of_splitOperands hparts hargs)
  rw [heq]
  refine { hi₁ with incoming := forall_mem_of_forall₂ (forall₂_imp_of_mem hincoming ?_) }
  intro a p ha _ hp
  exact oneLine_of_parseIncoming hp (hargs' a ha) (by rwa [String.toList_ofList])

theorem oneLine_of_parseCall (h : parseCall scope i rest = .ok i') (hi : i.OneLine)
    (hrest : '\n' ∉ rest) : i'.OneLine := by
  obtain ⟨t, rest', front, arguments, bracketed, behind, args, callee, flags, sufs, parts, htake,
    hfront, -, hbracket, hargs, hcallee, hflags, hparts, hsuffixes⟩ := parseCall_eq_ok_iff.1 h
  obtain ⟨ht, hrest'⟩ := newline_of_take htake hrest
  obtain ⟨rfl, -, -⟩ := splitAtTop?_eq_some_iff.1 hfront
  obtain ⟨inside, c, rfl, -, rfl⟩ := takeBracketed?_cons_eq_some rfl hbracket
  simp only [List.mem_append, List.mem_cons, not_or] at hrest'
  obtain ⟨hfront', -, hinside, -, hbehind⟩ := hrest'
  rw [List.cons_append, List.tail_cons, List.dropLast_concat] at hargs
  have hcalleeLine := Value.oneLine_of_parse hcallee (fun hmem => hfront' (trim_subset _ hmem))
    (by rwa [String.toList_ofList])
  have hbehind' : '\n' ∉ trim behind := fun hmem => hbehind (trim_subset _ hmem)
  have hsplit : '\n' ∉ flags ∧ '\n' ∉ sufs := by
    cases hcomma : splitAtTop? ',' {} (trim behind) with
    | none =>
        rw [hcomma] at hflags
        obtain ⟨rfl, rfl⟩ := Prod.mk.inj hflags
        exact ⟨hbehind', List.not_mem_nil⟩
    | some p =>
        rw [hcomma] at hflags
        obtain rfl : p = (flags, sufs) := hflags
        obtain ⟨heq, -, -⟩ := splitAtTop?_eq_some_iff.1 hcomma
        rw [heq] at hbehind'
        simp only [List.mem_append, List.mem_cons, not_or] at hbehind'
        exact ⟨hbehind'.1, hbehind'.2.2⟩
  refine (oneLine_of_takeSuffixes hsuffixes ?_
    (newline_of_splitOperands hparts hsplit.2)).1
  refine { (hi.with_type ht) with operands := ?_, flags := ?_ }
  · rw [List.forall_mem_append, List.forall_mem_singleton]
    exact ⟨Value.oneLine_of_parseTypedList hargs hinside, hcalleeLine⟩
  · rw [List.forall_mem_map]
    intro w hw
    rw [String.toList_ofList]
    exact fun hmem => hsplit.1 ((of_mem_words hw).2.2 hmem)

theorem oneLine_of_parseCast (h : parseCast scope i rest = .ok i') (hi : i.OneLine)
    (hrest : '\n' ∉ rest) : i'.OneLine := by
  obtain ⟨t, args, parts, i₁, conversion, value, destination, v, htake, hparts, hsuffixes, hsplit,
    hv, rfl⟩ := parseCast_eq_ok_iff.1 h
  obtain ⟨ht, hargs⟩ := newline_of_take htake hrest
  obtain ⟨hi₁, hargs'⟩ := oneLine_of_takeSuffixes hsuffixes (hi.with_type ht)
    (newline_of_splitOperands hparts hargs)
  have hconversion := hargs' conversion List.mem_cons_self
  obtain ⟨rfl, -⟩ := splitAtLast?_eq_some_iff.1 hsplit
  simp only [List.mem_append, not_or] at hconversion
  refine { hi₁ with operands := ?_, castType := ?_ }
  · rw [List.forall_mem_singleton]
    exact Value.oneLine_of_parse hv hconversion.1.1 (by rwa [String.toList_ofList])
  · rintro _ ⟨⟩
    rw [String.toList_ofList]
    exact fun hmem => hconversion.2 (trim_subset _ hmem)

theorem oneLine_of_parseRet (h : parseRet scope i rest = .ok i') (hi : i.OneLine)
    (hrest : '\n' ∉ rest) : i'.OneLine := by
  obtain ⟨t, args, htake, ⟨rfl, parts, hargs, hsuffixes⟩ | ⟨-, hshared, -⟩⟩ :=
    parseRet_eq_ok_iff.1 h
  · have hargs' := (newline_of_take htake hrest).2
    have hparts : ∀ p ∈ parts, '\n' ∉ p := by
      rcases hargs with ⟨-, rfl⟩ | ⟨s, rfl, hs⟩
      · simp
      · exact newline_of_splitOperands hs fun hmem => hargs' (List.mem_cons_of_mem _ hmem)
    have hvoid := hi.with_type (by decide : '\n' ∉ TypeToken.void.toList)
    rw [String.ofList_toList] at hvoid
    exact (oneLine_of_takeSuffixes hsuffixes hvoid hparts).1
  · exact oneLine_of_parseShared hshared hi hrest

theorem oneLine_of_parseAlloca (h : parseAlloca scope i rest = .ok i') (hi : i.OneLine)
    (hrest : '\n' ∉ rest) : i'.OneLine := by
  obtain ⟨t, args, htake, ⟨-, rfl⟩ | ⟨counts, rfl, hcounts⟩⟩ := parseAlloca_cases h
  · exact hi.with_type (newline_of_take htake hrest).1
  · obtain ⟨ht, hargs⟩ := newline_of_take htake hrest
    exact oneLine_of_parseTyped hcounts (hi.with_type ht) fun hmem =>
      hargs (List.mem_cons_of_mem _ hmem)

theorem oneLine_fresh (op : Opcode) : ({ opcode := op } : Instruction).OneLine := by
  constructor <;> simp

theorem oneLine_of_parseRest (h : parseRest scope op rest = .ok i) (hrest : '\n' ∉ rest) :
    i.OneLine := by
  have hfresh := oneLine_fresh op
  cases op with
  | load => exact oneLine_of_parseLoad h hfresh hrest
  | store =>
      obtain ⟨i₁, hparse, h⟩ := bind_eq_ok_iff.1 h
      obtain ⟨-, rfl⟩ := expectOperands_eq_ok_iff.1 h
      exact oneLine_of_parseTyped hparse hfresh hrest
  | getElementPtr => exact oneLine_of_parseGetElementPtr h hfresh hrest
  | icmp | brIcmp => exact oneLine_of_parseCompare h hfresh hrest
  | phi => exact oneLine_of_parsePhi h hfresh hrest
  | call => exact oneLine_of_parseCall h hfresh hrest
  | br =>
      obtain ⟨i₁, hparse, -, rfl⟩ := parseBr_eq_ok_iff.1 h
      exact (oneLine_of_parseShared hparse hfresh hrest).exchangeTargets
  | ret => exact oneLine_of_parseRet h hfresh hrest
  | alloca => exact oneLine_of_parseAlloca h hfresh hrest
  | unreachable =>
      obtain ⟨-, rfl⟩ := parseUnreachable_eq_ok_iff.1 h
      exact hfresh
  | copy =>
      obtain ⟨i₁, hparse, h⟩ := bind_eq_ok_iff.1 h
      obtain ⟨-, rfl⟩ := expectOperands_eq_ok_iff.1 h
      exact oneLine_of_parseShared hparse hfresh hrest
  | binary op =>
      obtain ⟨i₁, hparse, h⟩ := bind_eq_ok_iff.1 h
      obtain ⟨-, rfl⟩ := expectOperands_eq_ok_iff.1 h
      obtain ⟨-, hflags, hkeeps, -⟩ := takeFlags_spec rest
      refine oneLine_of_parseShared hparse { hfresh with flags := fun w hw => ?_ } fun hmem =>
        hrest (hkeeps.newline (List.mem_append_right _ hmem))
      have hunbroken := (unbroken_of_isWrapFlag (hflags w hw)).1
      exact fun hmem => absurd (hunbroken _ hmem) (by decide)
  | cast op => exact oneLine_of_parseCast h hfresh hrest

/-- An instruction that was read from one line is written on one line. -/
theorem oneLine_of_parse (h : parse scope code = .ok i) (hcode : '\n' ∉ code) : i.OneLine := by
  obtain ⟨result, s, tail, op, rest, i, hresult, hopens, hparse, rfl⟩ := parse_eq_ok_iff.1 h
  obtain ⟨hname, hs⟩ : (∀ name ∈ result, '\n' ∉ name.toList) ∧ '\n' ∉ s := by
    rcases splitResult_cases hresult with
      ⟨-, rfl, rfl⟩ | ⟨front, after, name, rfl, -, hident, rfl, rfl⟩
    · exact ⟨by simp, hcode⟩
    · refine ⟨?_, fun hmem => hcode ?_⟩
      · rintro _ ⟨⟩
        exact newline_of_isIdentifier hident
      · exact List.mem_append_right _ (List.mem_cons_of_mem _ (trim_subset _ hmem))
  have hrest : '\n' ∉ rest := by
    unfold Opens at hopens
    split at hopens
    · have hnext := newline_nextToken (newline_nextToken hs)
      rwa [hopens.2] at hnext
    · have hnext := newline_nextToken hs
      rwa [hopens] at hnext
  exact { oneLine_of_parseRest hparse hrest with result := hname }

end Instruction

end SsaIr
