import SsaIr.Proofs.Function.BodyLine
import SsaIr.Proofs.Value.Operand

/-!
# Instructions from outside

Instructions that were put together from simple types and operands are read from the text they are
written as: their operands from the list, what stands behind the opcode, and the whole line.
-/

namespace SsaIr.Instruction

open Text

variable {scope : List String} {i i' : Instruction} {p s x : List Char} {ps : List (List Char)}
  {type name label : String} {v lhs rhs : Value} {vs : List Value}

/-! ## Lists of arguments -/

/-- A text that can stand in a list of arguments and is not taken for a suffix. -/
structure Argument (p : List Char) : Prop where
  solid : Solid p
  piece : Piece p
  plain : Plain p
  paren : p.head? ≠ some '('
  align : after? "align ".toList p = none
  metadata : p.head? ≠ some '!'
  colon : p.getLast? ≠ some ':'

/-- A text that can be the code of a line without a comment. -/
structure Code (s : List Char) : Prop where
  solid : Solid s
  plain : Plain s
  colon : s.getLast? ≠ some ':'

theorem Argument.code (h : Argument p) : Code p := ⟨h.solid, h.plain, h.colon⟩

/-- Only the end of code has to be code. -/
theorem Code.append {a : List Char} (ha : a.head?.any (!isBlank ·) = true) (hplain : Plain a)
    (h : Code s) : Code (a ++ s) where
  solid := .append ha h.solid.last
  plain := hplain.append h.plain
  colon := by
    rw [List.getLast?_append_of_ne_nil _ h.solid.ne_nil]
    exact h.colon

/-- Code behind a word and a blank. -/
theorem Code.word {w : List Char} (hw : Unbroken w) (hne : w ≠ []) (hplain : Plain w)
    (h : Code s) : Code (w ++ ' ' :: s) := by
  have hcode := h.append (a := w ++ [' ']) (by
    rw [List.head?_append_of_ne_nil _ hne]
    exact (Solid.of_unbroken hw hne).head) (hplain.append (by decide))
  rwa [List.append_assoc] at hcode

theorem code_of_isSimple (h : TypeToken.isSimple type = true) : Code type.toList where
  solid := (TypeToken.isToken_of_isSimple h).solid
  plain := TypeToken.plain_of_isSimple h
  colon hlast := TypeToken.not_mem_of_isSimple h rfl (by decide) (List.mem_of_getLast? hlast)

theorem plain_intercalate (h : ∀ p ∈ ps, Plain p) : Plain ([',', ' '].intercalate ps) := by
  induction ps with
  | nil => decide
  | cons p ps ih =>
      obtain ⟨hp, hps⟩ := List.forall_mem_cons.1 h
      cases ps with
      | nil => simpa using hp
      | cons q ps =>
          rw [List.intercalate_cons_cons]
          exact (hp.append (by decide)).append (ih hps)

theorem code_intercalate (hne : ps ≠ []) (h : ∀ p ∈ ps, Argument p) :
    Code ([',', ' '].intercalate ps) := by
  have hsolid := solid_intercalate hne fun p hp => (h p hp).solid
  refine ⟨hsolid, plain_intercalate fun p hp => (h p hp).plain, fun hcolon => ?_⟩
  have hlast := List.getLast?_eq_some_getLast hne
  have hargument := h _ (List.getLast_mem hne)
  have hend := EndsInColon.of_intercalate hlast hargument.solid (hsolid.endsInColon_iff.2 hcolon)
  exact hargument.colon (hargument.solid.endsInColon_iff.1 hend)

theorem head?_ne_paren_intercalate (h : ∀ p ∈ ps, Argument p) :
    ([',', ' '].intercalate ps).head? ≠ some '(' := by
  cases ps with
  | nil => simp
  | cons p ps =>
      have hp := h p List.mem_cons_self
      rw [head?_intercalate hp.solid.ne_nil]
      exact hp.paren

theorem splitOperands_arguments (h : ∀ p ∈ ps, Argument p) :
    splitOperands ([',', ' '].intercalate ps) = .ok ps :=
  Value.splitOperands_intercalate fun p hp => ⟨(h p hp).solid, (h p hp).piece⟩

/-- An instruction without suffixes keeps all of the arguments. -/
theorem takeSuffixes_arguments (hi : i.suffixes = []) (h : ∀ p ∈ ps, Argument p) :
    takeSuffixes i ps = .ok (i, ps) := by
  obtain ⟨halign, hmetadata⟩ := suffixes_eq_nil_iff.1 hi
  have hsame : { i with alignment := none, metadata := none } = i := by
    rw [← halign, ← hmetadata]
  unfold takeSuffixes
  rw [takeMetadata_of_last fun p hp => (h p (List.mem_of_getLast? hp)).metadata]
  dsimp only
  rw [takeAlignment_of_last fun p hp => (h p (List.mem_of_getLast? hp)).align]
  exact congrArg (fun j => Except.ok (j, ps)) hsame

/-! ## Arguments as they are written -/

theorem argument_of_isWord (h : Value.IsWord p) : Argument p where
  solid := .of_unbroken h.unbroken h.ne_nil
  piece := h.piece
  plain := h.plain
  paren hhead := h.not_mem rfl (by decide) (by decide) (List.mem_of_mem_head? hhead)
  align := Value.after?_of_unbroken h.unbroken (by decide)
  metadata hhead := h.not_mem rfl (by decide) (by decide) (List.mem_of_mem_head? hhead)
  colon hlast := h.not_mem rfl (by decide) (by decide) (List.mem_of_getLast? hlast)

/-- A word behind a word is an argument, unless the first makes it an alignment. -/
theorem argument_append_space {w : List Char} (hw : Argument w) (hunbroken : Unbroken w)
    (halign : w ≠ "align".toList) (hp : Argument p) : Argument (w ++ ' ' :: p) where
  solid := hw.solid.append_space hp.solid
  piece := hw.piece.append (blanks_space.piece.append hp.piece)
  plain := hw.plain.append (Plain.append (a := [' ']) (by decide) hp.plain)
  paren := by
    rw [List.head?_append_of_ne_nil _ hw.solid.ne_nil]
    exact hw.paren
  align := by
    have hbreaks : Breaks (' ' :: p) := rfl
    exact after?_of_breaks (v := "align".toList) hunbroken hw.solid.ne_nil hbreaks (by decide)
      (by decide) (Ne.symm halign)
  metadata := by
    rw [List.head?_append_of_ne_nil _ hw.solid.ne_nil]
    exact hw.metadata
  colon := by
    rw [List.getLast?_append_of_ne_nil _ (List.cons_ne_nil _ _), List.getLast?_cons,
      List.getLast?_eq_some_getLast hp.solid.ne_nil]
    have hcolon := hp.colon
    rwa [List.getLast?_eq_some_getLast hp.solid.ne_nil] at hcolon

theorem argument_of_isSimple (h : TypeToken.isSimple type = true) : Argument type.toList := by
  have hmem : ∀ c, c.isAlphanum = false → c ≠ '*' → type.toList.head? ≠ some c :=
    fun c hc hstar hhead =>
      TypeToken.not_mem_of_isSimple h hc hstar (List.mem_of_mem_head? hhead)
  obtain ⟨hsolid, hplain, hcolon⟩ := code_of_isSimple h
  exact ⟨hsolid, TypeToken.piece_of_isSimple h, hplain, hmem '(' rfl (by decide),
    Value.after?_of_unbroken (TypeToken.unbroken_of_isSimple h) (by decide),
    hmem '!' rfl (by decide), hcolon⟩

theorem argument_label : Argument TypeToken.label.toList :=
  ⟨TypeToken.isToken_label.solid, by decide, by decide, by decide, rfl, by decide, by decide⟩

theorem argument_name (h : isIdentifier name.toList = true) : Argument ('%' :: name.toList) :=
  argument_of_isWord (Value.isWord_cons (.inl rfl) h)

theorem argument_text (h : v.isOperand scope = true) : Argument v.text.toList :=
  argument_of_isWord (Value.isWord_of_isOperand h)

theorem argument_typedText (h : v.isOperand scope = true)
    (htype : TypeToken.isSimple v.type = true) : Argument v.typedText.toList := by
  rw [Value.typedText_eq (Value.isMetadata_of_isOperand h)]
  refine argument_append_space (argument_of_isSimple htype) (TypeToken.unbroken_of_isSimple htype)
    (fun halign => ?_) (argument_text h)
  have hreserved : "align" ∈ TypeToken.reserved := by decide
  exact TypeToken.ne_of_isSimple htype hreserved (String.toList_injective halign)

theorem argument_target (h : isIdentifier label.toList = true) :
    Argument (branchText (.label label)) := by
  rw [branchText_of_label rfl, typedText_of_isLabel rfl, Value.text_label]
  exact argument_append_space argument_label (by decide) (by decide) (argument_name h)

theorem parse_target (h : isIdentifier label.toList = true) :
    Value.parse scope (branchText (.label label)) type = .ok (.label label) := by
  rw [branchText_of_label rfl, Value.typedText_label, String.toList_append]
  exact Value.parse_of_form (Value.form_label h)

/-- An operand with the type in front of the list. -/
theorem argument_operand (h : v.isOperand scope = true) : Argument (branchText v) := by
  rw [branchText_of_plain (Value.isPlain_of_isOperand h)]
  exact argument_text h

theorem parse_operand (h : v.isOperand scope = true) (htype : TypeToken.isSimple v.type = true) :
    Value.parse scope (branchText v) v.type = .ok v := by
  rw [branchText_of_plain (Value.isPlain_of_isOperand h)]
  exact Value.parse_of_form
    (Value.form_of_isOperand h (TypeToken.ne_of_isSimple htype (by decide)))

/-- A pair is read from what it is written as, since it is read with fewer blanks. -/
theorem pair_reread (h : v.isOperand scope = true) (htype : TypeToken.isSimple v.type = true)
    (hlabel : isIdentifier label.toList = true) :
    Argument (pairText v label) ∧
      parseIncoming scope v.type (pairText v label) = .ok (v, label) := by
  have hlist : ∀ p ∈ [v.text.toList, '%' :: label.toList], Argument p := by
    simp only [List.forall_mem_cons, List.not_mem_nil, false_implies, implies_true, and_true]
    exact ⟨argument_text h, argument_name hlabel⟩
  have hparse : Value.parse scope v.text.toList v.type = .ok v :=
    Value.parse_of_form (Value.form_of_isOperand h (TypeToken.ne_of_isSimple htype (by decide)))
  have hpair : parseIncoming scope v.type
      ('[' :: ([',', ' '].intercalate [v.text.toList, '%' :: label.toList] ++ [']'])) =
        .ok (v, label) :=
    parseIncoming_eq_ok_iff.2 ⟨_, _, _, rfl, splitOperands_arguments hlist, sigilName?_cons hlabel,
      hparse⟩
  have hpiece := (balanced_intercalate fun p hp => (hlist p hp).piece).bracket (o := '[') (c := ']')
    rfl rfl
  obtain ⟨hrespelled, hagain⟩ := parseIncoming_reread hpair hpiece
    (Value.isRegular_of_isOperand h) (Value.isPlain_of_isOperand h)
  refine ⟨⟨hrespelled.solid, hrespelled.piece, ?_, by simp [pairText], rfl, by simp [pairText], ?_⟩,
    hagain⟩
  · have htext := (argument_text h).plain
    have hname := (argument_name hlabel).plain
    have hopen := (Plain.append (a := ['[', ' ']) (by decide) htext).append
      (b := [',', ' ']) (by decide)
    have hplain := (hopen.append hname).append (b := [' ', ']']) (by decide)
    simpa [pairText] using hplain
  · rw [pairText, List.getLast?_concat]
    decide

/-! ## Operands behind the opcode -/

/-- Operands that share a type are read from their list, if each is read from what it is written
as. -/
theorem parseShared_list (write : Value → List Char) (hi : i.suffixes = [])
    (htoken : TypeToken.IsToken type.toList) (hne : vs ≠ [])
    (harguments : ∀ v ∈ vs, Argument (write v))
    (hparse : ∀ v ∈ vs, Value.parse scope (write v) type = .ok v) :
    parseShared scope i (type.toList ++ ' ' :: [',', ' '].intercalate (vs.map write)) =
      .ok { i with type := some type, operands := vs } := by
  have hlist : ∀ p ∈ vs.map write, Argument p := by
    intro p hp
    obtain ⟨v, hv, rfl⟩ := List.mem_map.1 hp
    exact harguments v hv
  have hcode := code_intercalate (mt List.map_eq_nil_iff.1 hne) hlist
  have htake := htoken.take_space hcode.solid.head_all (head?_ne_paren_intercalate hlist)
  refine parseShared_eq_ok_iff.2 ⟨type.toList, _, vs.map write,
    { i with type := some type }, vs.map write, htake, splitOperands_arguments hlist, ?_, ?_,
    rfl⟩
  · rw [String.ofList_toList]
    exact takeSuffixes_arguments hi hlist
  · rw [List.forall₂_map_left_iff, List.forall₂_same, String.ofList_toList]
    exact hparse

/-- Operands with types of their own are read from their list. -/
theorem parseTyped_list (hi : i.suffixes = [])
    (hvs : ∀ v ∈ vs, v.isOperand scope = true ∧ TypeToken.isSimple v.type = true) :
    parseTyped scope i ([',', ' '].intercalate (vs.map fun v => v.typedText.toList)) =
      .ok { i with operands := vs } := by
  have hlist : ∀ p ∈ vs.map fun v => v.typedText.toList, Argument p := by
    intro p hp
    obtain ⟨v, hv, rfl⟩ := List.mem_map.1 hp
    exact argument_typedText (hvs v hv).1 (hvs v hv).2
  refine parseTyped_eq_ok_iff.2 ⟨_, i, _, splitOperands_arguments hlist,
    takeSuffixes_arguments hi hlist, ?_, rfl⟩
  rw [List.forall₂_map_left_iff, List.forall₂_same]
  exact fun v hv => (Value.rereadTyped_of_isOperand (hvs v hv).1 (hvs v hv).2).parse

/-- Pairs are read from their list. -/
theorem parsePhi_list {incoming : List (Value × String)} (hi : i.suffixes = [])
    (htype : TypeToken.isSimple type = true) (hne : incoming ≠ [])
    (hpairs : ∀ q ∈ incoming, q.1.isOperand scope = true ∧ q.1.type = type ∧
      isIdentifier q.2.toList = true) :
    parsePhi scope i (type.toList ++
      ' ' :: [',', ' '].intercalate (incoming.map fun q => pairText q.1 q.2)) =
      .ok { i with type := some type, incoming } := by
  have hread : ∀ q ∈ incoming, Argument (pairText q.1 q.2) ∧
      parseIncoming scope type (pairText q.1 q.2) = .ok q := by
    intro q hq
    obtain ⟨hoperand, rfl, hlabel⟩ := hpairs q hq
    exact pair_reread hoperand htype hlabel
  have hlist : ∀ p ∈ incoming.map fun q : Value × String => pairText q.1 q.2, Argument p := by
    intro p hp
    obtain ⟨q, hq, rfl⟩ := List.mem_map.1 hp
    exact (hread q hq).1
  have hcode := code_intercalate (mt List.map_eq_nil_iff.1 hne) hlist
  have htake := (TypeToken.isToken_of_isSimple htype).take_space hcode.solid.head_all
    (head?_ne_paren_intercalate hlist)
  refine parsePhi_eq_ok_iff.2 ⟨type.toList, _, _, { i with type := some type },
    incoming.map fun q : Value × String => pairText q.1 q.2, htake,
    splitOperands_arguments hlist, ?_, ?_, hne, rfl⟩
  · rw [String.ofList_toList]
    exact takeSuffixes_arguments hi hlist
  · rw [List.forall₂_map_left_iff, List.forall₂_same, String.ofList_toList]
    exact fun q hq => (hread q hq).2

/-- A callee starts with a sigil. -/
theorem head?_of_callee (h : v.isOperand scope = true) (hv : v.isConstant = false) :
    v.text.toList.head? = some '@' ∨ v.text.toList.head? = some '%' := by
  cases v with
  | argument name type => exact .inr (by rw [Value.text, String.toList_append]; rfl)
  | temp name type => exact .inr (by rw [Value.text, String.toList_append]; rfl)
  | global name type => exact .inl (by rw [Value.text_global]; rfl)
  | int value type => cases hv
  | _ => cases h

/-- A callee and its arguments are read behind their type. -/
theorem parseCall_list {args : List Value} {callee : Value} (hi : i.suffixes = [])
    (hcallee : callee.isOperand scope = true) (hconstant : callee.isConstant = false)
    (htype : TypeToken.isSimple callee.type = true)
    (hargs : ∀ v ∈ args, v.isOperand scope = true ∧ TypeToken.isSimple v.type = true) :
    parseCall scope i (callee.type.toList ++
      ' ' :: (callee.text.toList ++ '(' :: (Value.listText args ++ [')']))) =
      .ok { i with type := some callee.type, operands := args ++ [callee], flags := [] } := by
  have hlist : ∀ p ∈ args.map fun v => v.typedText.toList, Argument p := by
    intro p hp
    obtain ⟨v, hv, rfl⟩ := List.mem_map.1 hp
    exact argument_typedText (hargs v hv).1 (hargs v hv).2
  have hword := Value.isWord_of_isOperand hcallee
  have hsolid : Solid callee.text.toList := .of_unbroken hword.unbroken hword.ne_nil
  have hhead := head?_of_callee hcallee hconstant
  have htake : TypeToken.take (callee.type.toList ++
      ' ' :: (callee.text.toList ++ '(' :: (Value.listText args ++ [')']))) =
        .ok (callee.type.toList, callee.text.toList ++ '(' :: (Value.listText args ++ [')'])) := by
    apply (TypeToken.isToken_of_isSimple htype).take_space
    · rw [List.head?_append_of_ne_nil _ hword.ne_nil]
      exact hsolid.head_all
    · rw [List.head?_append_of_ne_nil _ hword.ne_nil]
      exact (argument_text hcallee).paren
  have hfront : splitAtTop? '(' {} (callee.text.toList ++ '(' :: (Value.listText args ++ [')'])) =
      some (callee.text.toList, Value.listText args ++ [')']) := by
    refine splitAtTop?_eq_some_iff.2 ⟨rfl, ?_, ?_⟩
    · exact splitAtTop?_eq_none_of_not_mem (hword.not_mem rfl (by decide) (by decide))
    · rw [hword.piece.balanced.run_eq]
      rfl
  have hbracket : takeBracketed? {} ('(' :: (Value.listText args ++ [')'])) =
      some ('(' :: Value.listText args ++ [')'], []) :=
    takeBracketed?_parens (balanced_intercalate fun p hp => (hlist p hp).piece)
  refine parseCall_eq_ok_iff.2 ⟨callee.type.toList, _, callee.text.toList, _, _, [], args, callee,
    [], [], [], htake, hfront, ?_, hbracket, ?_, ?_, rfl, rfl, ?_⟩
  · rwa [hsolid.trim_eq]
  · rw [List.cons_append, List.tail_cons, List.dropLast_concat]
    refine bind_eq_ok_iff.2 ⟨_, splitOperands_arguments hlist, mapM_eq_ok_iff.2 ?_⟩
    rw [List.forall₂_map_left_iff, List.forall₂_same]
    exact fun v hv => (Value.rereadTyped_of_isOperand (hargs v hv).1 (hargs v hv).2).parse
  · rw [hsolid.trim_eq, String.ofList_toList]
    exact Value.parse_of_form
      (Value.form_of_isOperand hcallee (TypeToken.ne_of_isSimple htype (by decide)))
  · rw [String.ofList_toList]
    exact takeSuffixes_arguments hi fun p hp => by cases hp

end SsaIr.Instruction
