import SsaIr.Proofs.Instruction.RoundTrip

/-!
# Branches with two targets

A branch with two targets is written true side first and kept false side first. Whether it was made
or read, its targets are the two labels in the order in which they are written.
-/

namespace SsaIr

open Text

variable {scope : List String} {type T F n : String} {s r t x : List Char}
  {parts : List (List Char)} {v : Value} {i i' : Instruction} {rest : List Char}

theorem TypeToken.exists_blanks_of_take (h : take (t ++ ' ' :: x) = .ok (t, r)) :
    ∃ gap, Blanks gap ∧ ' ' :: x = gap ++ r := by
  obtain ⟨gap, hgap, hsplit⟩ := exists_append_of_take h
  cases t with
  | nil =>
      obtain ⟨lead, hlead, hrest⟩ := exists_trimStart (' ' :: x)
      refine ⟨lead ++ gap, hlead.append hgap, ?_⟩
      rw [List.nil_append, List.nil_append] at hsplit
      rw [hrest, hsplit, List.append_assoc]
  | cons c t =>
      have hhead := (solid_of_take h (List.cons_ne_nil c t)).head_all
      rw [trimStart_of_head (s := c :: t ++ ' ' :: x) hhead, List.append_assoc] at hsplit
      exact ⟨gap, hgap, List.append_cancel_left hsplit⟩

theorem Value.parse_trim (scope : List String) (s : List Char) (type : String) :
    parse scope (trim s) type = parse scope s type := by
  have hform : form scope (trim s) type = form scope s type := by
    unfold form
    rw [trim_trim]
  rw [parse_eq, parse_eq, hform]

/-! ## Targets at the end of a list -/

/-- A target as it stands behind a comma. -/
def targetText (n : String) : List Char := ' ' :: ("label %".toList ++ n.toList)

/-- Both targets as they stand at the end of a line. -/
def targetsText (T F : String) : List Char := ',' :: targetText T ++ ',' :: targetText F

theorem piece_targetText (h : isIdentifier n.toList = true) : Piece (targetText n) := by
  have hlead : Piece (' ' :: "label %".toList) := by decide
  exact hlead.append (Value.isWord_of_isIdentifier h).piece

theorem trim_targetText (h : isIdentifier n.toList = true) :
    trim (targetText n) = "label %".toList ++ n.toList := by
  have hword := (Value.isWord_of_isIdentifier h)
  have hname : Solid n.toList := .of_unbroken hword.unbroken hword.ne_nil
  have hsolid : Solid ("label %".toList ++ n.toList) := .append (by decide) hname.last
  rw [targetText, trim_space, hsolid.trim_eq]

theorem parse_targetText (h : isIdentifier n.toList = true) :
    Value.parse scope (trim (targetText n)) type = .ok (.label n) := by
  rw [trim_targetText h]
  exact Value.parse_of_form (Value.form_label h)

/-- Targets at the end of a list are its last parts. -/
theorem splitTop?_targetsText (hT : isIdentifier T.toList = true) (hF : isIdentifier F.toList = true)
    (h : splitTop? (s ++ targetsText T F) = some parts) :
    ∃ front, segments? {} s = some front ∧
      parts = (front ++ [targetText T, targetText F]).map trim := by
  have hblank : allBlank (s ++ targetsText T F) = false := by
    rw [allBlank, List.all_eq_false]
    exact ⟨',', by simp [targetsText], by decide⟩
  have hassoc : s ++ targetsText T F = (s ++ ',' :: targetText T) ++ ',' :: targetText F := by
    simp [targetsText]
  rw [splitTop?, hblank, if_neg Bool.false_ne_true, hassoc] at h
  obtain ⟨segments, hsegments, rfl⟩ := Option.map_eq_some_iff.1 h
  obtain ⟨init, hinit, rfl⟩ := segments?_concat (piece_targetText hF) hsegments
  obtain ⟨front, hfront, rfl⟩ := segments?_concat (piece_targetText hT) hinit
  exact ⟨front, hfront, by rw [List.append_assoc, List.singleton_append]⟩

namespace Instruction

/-- Targets are no suffixes. -/
theorem takeSuffixes_targetsText (hF : isIdentifier F.toList = true) {front : List (List Char)} :
    takeSuffixes i ((front ++ [targetText T, targetText F]).map trim) =
      .ok ({ i with alignment := none, metadata := none },
        (front ++ [targetText T, targetText F]).map trim) := by
  have hlast : ∀ p, ((front ++ [targetText T, targetText F]).map trim).getLast? = some p →
      p = "label %".toList ++ F.toList := by
    intro p hp
    rw [List.append_cons, List.map_append, List.map_singleton, List.getLast?_concat,
      trim_targetText hF] at hp
    exact (Option.some.inj hp).symm
  unfold takeSuffixes
  rw [takeMetadata_of_last fun p hp => by rw [hlast p hp]; simp]
  dsimp only
  rw [takeAlignment_of_last fun p hp => by rw [hlast p hp]; rfl]
  rfl

/-- A list that ends in two targets has these as its last operands, and no suffixes. -/
theorem parseShared_targetsText (hT : isIdentifier T.toList = true)
    (hF : isIdentifier F.toList = true)
    (h : parseShared scope i (type.toList ++ ' ' :: (s ++ targetsText T F)) = .ok i')
    (htype : i'.type = some type) : ∃ front vs, segments? {} s = some front ∧
      front.mapM (Value.parse scope · type) = .ok vs ∧
        i' = { i with
          type := some type, operands := vs ++ [.label T, .label F]
          alignment := none, metadata := none } := by
  obtain ⟨arg, htake⟩ := take_of_parseShared h htype
  obtain ⟨t, args, parts, i₁, args', htake', hparts, hsuffixes, hoperands, heq⟩ :=
    parseShared_eq_ok_iff.1 h
  obtain ⟨rfl, rfl⟩ := Prod.mk.inj (Except.ok.inj (htake.symm.trans htake'))
  rw [String.ofList_toList] at hsuffixes hoperands
  -- Only blanks lie between the type and the list, and the list is cut as without them.
  obtain ⟨gap, hgap, hrest⟩ := TypeToken.exists_blanks_of_take htake
  have hsplit : splitTop? (s ++ targetsText T F) = some parts := by
    rw [← splitTop?_blanks_append blanks_space, List.singleton_append, hrest,
      splitTop?_blanks_append hgap, splitOperands_eq_ok_iff.1 hparts]
  obtain ⟨front, hfront, rfl⟩ := splitTop?_targetsText hT hF hsplit
  rw [takeSuffixes_targetsText hF] at hsuffixes
  obtain ⟨rfl, rfl⟩ := Prod.mk.inj (Except.ok.inj hsuffixes)
  -- The targets come last among the operands, and each part is read with its blanks or without.
  have hmap := mapM_eq_ok_iff.2 (List.forall₂_map_left_iff.1 hoperands)
  rw [List.mapM_append] at hmap
  obtain ⟨vs, hvs, hmap⟩ := bind_eq_ok_iff.1 hmap
  obtain ⟨targets, htargets, hmap⟩ := bind_eq_ok_iff.1 hmap
  have hlabels := mapM_eq_ok_iff.2
    (.cons (parse_targetText hT) (.cons (parse_targetText hF) .nil) :
      List.Forall₂ (fun a v => Value.parse scope (trim a) type = .ok v)
        [targetText T, targetText F] [.label T, .label F])
  obtain rfl := Except.ok.inj (htargets.symm.trans hlabels)
  simp only [Value.parse_trim] at hvs
  refine ⟨front, vs, hfront, hvs, ?_⟩
  rw [heq, ← Except.ok.inj hmap]

/-! ## Lines with two targets -/

theorem parseShared_trimStart (scope : List String) (i : Instruction) (s : List Char) :
    parseShared scope i (trimStart s) = parseShared scope i s := by
  have htake : TypeToken.take (trimStart s) = TypeToken.take s := by
    unfold TypeToken.take
    rw [trimStart_trimStart]
  rw [parseShared, parseShared, htake]

theorem keyword_injective {op op' : Opcode} (h : op.keyword = op'.keyword) : op = op' := by
  have hsome := Opcode.ofKeyword?_keyword op
  rw [h, Opcode.ofKeyword?_keyword] at hsome
  exact (Option.some.inj hsome).symm

/-- A line behind whose result an opcode stands is read as that opcode says. -/
theorem exists_of_parse_opcode {op : Opcode} {code : List Char} {result : Option String}
    (h : parse scope code = .ok i) (hresult : splitResult code = .ok (result, s))
    (hs : nextToken s = (op.keyword.toList, rest)) :
    ∃ j, parseRest scope op rest = .ok j ∧ i = { j with result, tail := false } := by
  obtain ⟨_, _, tail, op', rest', j, hresult', hopens, hparse, rfl⟩ := parse_eq_ok_iff.1 h
  obtain ⟨rfl, rfl⟩ := Prod.mk.inj (Except.ok.inj (hresult.symm.trans hresult'))
  cases tail with
  | true =>
      obtain ⟨htail, -⟩ := hopens
      rw [hs] at htail
      exact absurd htail (keyword_ne_tail op)
  | false =>
      obtain ⟨hkeyword, rfl⟩ := Prod.mk.inj (hs.symm.trans hopens)
      obtain rfl := keyword_injective (String.toList_injective hkeyword)
      exact ⟨j, hparse, rfl⟩

/-- A line of code, with a name for its result or without. -/
def named (result : Option String) (code : String) : String :=
  match result with
  | some name => "%" ++ name ++ " = " ++ code
  | none => code

theorem splitResult_named {result : Option String} {code : String}
    (hresult : ∀ name ∈ result, isIdentifier name.toList = true) (hsolid : Solid code.toList)
    (hhead : code.toList.head? ≠ some '%') :
    splitResult (named result code).toList = .ok (result, code.toList) := by
  cases result with
  | none => exact splitResult_none hhead
  | some name =>
      have htext : (named (some name) code).toList =
          '%' :: (name.toList ++ [' ', '=', ' '] ++ code.toList) := by simp [named]
      rw [htext, splitResult_some (hresult name rfl) hsolid]

/-- A branch on a condition, as it is written. -/
def brText (type condition whenTrue whenFalse : String) : String :=
  "br " ++ type ++ " " ++ condition ++ ", label %" ++ whenTrue ++ ", label %" ++ whenFalse

/-- A comparison with a branch on its outcome, as it is written. -/
def bricmpText (predicate : Predicate) (type lhs rhs whenTrue whenFalse : String) : String :=
  "bricmp " ++ predicate.keyword ++ " " ++ type ++ " " ++ lhs ++ ", " ++ rhs ++
    ", label %" ++ whenTrue ++ ", label %" ++ whenFalse

theorem toList_targets (T F : String) :
    ", label %".toList ++ (T.toList ++ (", label %".toList ++ F.toList)) = targetsText T F := by
  have hlabel : ", label %".toList = ',' :: ' ' :: "label %".toList := rfl
  rw [hlabel, targetsText, targetText, targetText]
  simp only [List.cons_append, List.append_assoc]

theorem toList_brText (type condition T F : String) : (brText type condition T F).toList =
    "br".toList ++ ' ' :: (type.toList ++ ' ' :: (condition.toList ++ targetsText T F)) := by
  have hopcode : "br ".toList = "br".toList ++ [' '] := rfl
  simp only [brText, String.toList_append, List.append_assoc, toList_targets, hopcode,
    -String.reduceToList]
  rfl

theorem toList_bricmpText (p : Predicate) (type lhs rhs T F : String) :
    (bricmpText p type lhs rhs T F).toList = "bricmp".toList ++ ' ' :: (p.keyword.toList ++
      ' ' :: (type.toList ++ ' ' :: (lhs.toList ++ ',' :: ' ' :: rhs.toList ++ targetsText T F))) := by
  have hopcode : "bricmp ".toList = "bricmp".toList ++ [' '] := rfl
  unfold bricmpText
  simp only [String.toList_append, List.append_assoc, toList_targets, hopcode,
    -String.reduceToList]
  rfl

theorem last_targetsText (hF : isIdentifier F.toList = true) :
    (targetsText T F).getLast?.any (!isBlank ·) = true := by
  have hword := Value.isWord_of_isIdentifier hF
  have hsplit : targetsText T F =
      (',' :: targetText T ++ ',' :: ' ' :: "label %".toList) ++ F.toList := by
    simp [targetsText, targetText]
  rw [hsplit, List.getLast?_append_of_ne_nil _ hword.ne_nil]
  exact (Solid.of_unbroken hword.unbroken hword.ne_nil).last

/-- A line whose code starts with an opcode and ends in two targets. -/
theorem exists_of_parse_named {op : Opcode} {code : String} {result : Option String}
    (hF : isIdentifier F.toList = true)
    (hresult : ∀ name ∈ result, isIdentifier name.toList = true)
    (hop : op.keyword.toList.head? ≠ some '%')
    (hcode : code.toList = op.keyword.toList ++ ' ' :: (s ++ targetsText T F))
    (h : parse scope (named result code).toList = .ok i) :
    ∃ j, parseRest scope op (trimStart (s ++ targetsText T F)) = .ok j ∧
      i = { j with result, tail := false } := by
  obtain ⟨hunbroken, hne, -⟩ := unbroken_keyword op
  have hsolid : Solid code.toList := by
    rw [hcode, ← List.cons_append, ← List.append_assoc]
    refine .append ?_ (last_targetsText hF)
    rw [List.head?_append_of_ne_nil _ hne]
    exact (Solid.of_unbroken hunbroken hne).head
  have hhead : code.toList.head? ≠ some '%' := by
    rwa [hcode, List.head?_append_of_ne_nil _ hne]
  apply exists_of_parse_opcode h (splitResult_named hresult hsolid hhead)
  rw [hcode, nextToken_append hunbroken hne (s := ' ' :: (s ++ targetsText T F)) rfl,
    ← List.singleton_append, trimStart_append_of_blanks blanks_space]

/-- A branch that is read keeps its targets the other way around. -/
theorem eq_condBranch_of_parse {condition : String} {result : Option String}
    (hT : isIdentifier T.toList = true) (hF : isIdentifier F.toList = true)
    (hresult : ∀ name ∈ result, isIdentifier name.toList = true)
    (h : parse scope (named result (brText type condition T F)).toList = .ok i)
    (htype : i.type = some type) : ∃ v, Value.parse scope condition.toList type = .ok v ∧
      i = { condBranch v T F with type := some type, result } := by
  have hcode : (brText type condition T F).toList = Opcode.br.keyword.toList ++
      ' ' :: ((type.toList ++ ' ' :: condition.toList) ++ targetsText T F) := by
    rw [toList_brText, List.append_assoc]
    rfl
  obtain ⟨j, hparse, rfl⟩ := exists_of_parse_named hF hresult (by decide) hcode h
  obtain ⟨i₁, hshared, hcount, rfl⟩ := parseBr_eq_ok_iff.1 hparse
  rw [parseShared_trimStart, List.append_assoc] at hshared
  obtain ⟨front, vs, hfront, hvs, rfl⟩ := parseShared_targetsText hT hF hshared htype
  -- Three operands leave one for the condition, so no comma cuts its text.
  obtain ⟨p, ps, rfl, hcondition, -, -⟩ := segments?_eq_some hfront
  have hlength := (mapM_eq_ok_iff.1 hvs).length_eq
  have hps : ps = [] := by
    simp only [List.length_append, List.length_cons, List.length_nil] at hcount hlength
    exact List.length_eq_zero_iff.1 (by omega)
  subst hps
  rw [List.flatMap_nil, List.append_nil] at hcondition
  obtain ⟨v, rfl⟩ := List.length_eq_one_iff.1 hlength.symm
  refine ⟨v, ?_, rfl⟩
  rw [hcondition]
  exact (List.forall₂_cons.1 (mapM_eq_ok_iff.1 hvs)).1

theorem unbroken_predicate (p : Predicate) :
    Unbroken p.keyword.toList ∧ p.keyword.toList ≠ [] := by
  cases p <;> decide

/-- A comparison with a branch that is read keeps its targets the other way around. What it compares
is what stands around the comma, if that comma is the only one outside brackets and quotes. -/
theorem eq_compareBranch_of_parse {p : Predicate} {lhs rhs : String} {result : Option String}
    (hT : isIdentifier T.toList = true) (hF : isIdentifier F.toList = true)
    (hresult : ∀ name ∈ result, isIdentifier name.toList = true)
    (h : parse scope (named result (bricmpText p type lhs rhs T F)).toList = .ok i)
    (htype : i.type = some type) : ∃ vl vr,
      (Piece lhs.toList → Piece rhs.toList → Value.parse scope lhs.toList type = .ok vl ∧
        Value.parse scope rhs.toList type = .ok vr) ∧
      i = { compareBranch p type vl vr T F with result } := by
  have hcode : (bricmpText p type lhs rhs T F).toList = Opcode.brIcmp.keyword.toList ++
      ' ' :: ((p.keyword.toList ++ ' ' :: (type.toList ++
        ' ' :: (lhs.toList ++ ',' :: ' ' :: rhs.toList))) ++ targetsText T F) := by
    rw [toList_bricmpText]
    simp only [List.append_assoc, List.cons_append]
    rfl
  obtain ⟨hunbroken, hne⟩ := unbroken_predicate p
  obtain ⟨j, hparse, rfl⟩ := exists_of_parse_named hF hresult (by decide) hcode h
  obtain ⟨p', i₁, hpredicate, hshared, hcount, rfl⟩ := parseCompare_eq_ok_iff.1 hparse
  have hword : nextToken (trimStart ((p.keyword.toList ++ ' ' :: (type.toList ++
      ' ' :: (lhs.toList ++ ',' :: ' ' :: rhs.toList))) ++ targetsText T F)) =
      (p.keyword.toList, trimStart (type.toList ++
        ' ' :: ((lhs.toList ++ ',' :: ' ' :: rhs.toList) ++ targetsText T F))) := by
    have hbreaks : ∀ x, Breaks (' ' :: x) := fun x => rfl
    rw [nextToken_trimStart, List.append_assoc, List.cons_append,
      nextToken_append hunbroken hne (hbreaks _), List.append_assoc, List.cons_append,
      ← List.singleton_append, trimStart_append_of_blanks blanks_space]
  rw [hword, String.ofList_toList, Predicate.ofKeyword?_keyword] at hpredicate
  obtain rfl := Option.some.inj hpredicate
  rw [hword, parseShared_trimStart] at hshared
  obtain ⟨front, vs, hfront, hvs, rfl⟩ := parseShared_targetsText hT hF hshared htype
  have hlength : vs.length = 2 := by
    simp only [List.length_append, List.length_cons, List.length_nil] at hcount
    omega
  obtain ⟨vl, vr, rfl⟩ := List.length_eq_two.1 hlength
  refine ⟨vl, vr, ?_, rfl⟩
  -- Two pieces with a comma between them are cut there and nowhere else.
  intro hlhs hrhs
  have hspace : ∀ q ∈ [' ' :: rhs.toList], Piece q :=
    List.forall_mem_singleton.2 (blanks_space.piece.append hrhs)
  have hsegments := segments?_flatMap hlhs hspace
  rw [List.flatMap_singleton, hfront] at hsegments
  rw [Option.some.inj hsegments] at hvs
  obtain ⟨hvl, hvr⟩ := List.forall₂_cons.1 (mapM_eq_ok_iff.1 hvs)
  refine ⟨hvl, ?_⟩
  rw [← Value.parse_trim, ← trim_space, Value.parse_trim]
  exact (List.forall₂_cons.1 hvr).1

/-! ## Branches with two targets -/

/-- A branch that goes to `T` if its condition holds and to `F` if not: made so, or read from a line
that names `T` before `F`. Reading a function adds the comment on the line. -/
inductive TwoWay (T F : String) : Instruction → Prop where
  | condBranch (condition : Value) : TwoWay T F (condBranch condition T F)
  | compareBranch (predicate : Predicate) (type : String) (lhs rhs : Value) :
      TwoWay T F (compareBranch predicate type lhs rhs T F)
  | br {scope : List String} {type condition : String} {result : Option String} {i : Instruction}
      (hT : isIdentifier T.toList = true) (hF : isIdentifier F.toList = true)
      (hresult : ∀ name ∈ result, isIdentifier name.toList = true)
      (h : parse scope (named result (brText type condition T F)).toList = .ok i)
      (htype : i.type = some type) (comment : Option String) : TwoWay T F { i with comment }
  | bricmp {scope : List String} {predicate : Predicate} {type lhs rhs : String}
      {result : Option String} {i : Instruction}
      (hT : isIdentifier T.toList = true) (hF : isIdentifier F.toList = true)
      (hresult : ∀ name ∈ result, isIdentifier name.toList = true)
      (h : parse scope (named result (bricmpText predicate type lhs rhs T F)).toList = .ok i)
      (htype : i.type = some type) (comment : Option String) : TwoWay T F { i with comment }

namespace TwoWay

/-- However it came about, the second target is kept first. -/
theorem exists_eq (h : TwoWay T F i) :
    (∃ v result type comment,
      i = { Instruction.condBranch v T F with result, type, comment }) ∨
    ∃ p t vl vr result comment,
      i = { Instruction.compareBranch p t vl vr T F with result, comment } := by
  cases h with
  | condBranch v => exact .inl ⟨v, none, some v.type, none, rfl⟩
  | compareBranch p t vl vr => exact .inr ⟨p, t, vl, vr, none, none, rfl⟩
  | br hT hF hresult h htype comment =>
      obtain ⟨v, -, rfl⟩ := eq_condBranch_of_parse hT hF hresult h htype
      exact .inl ⟨v, _, _, comment, rfl⟩
  | bricmp hT hF hresult h htype comment =>
      obtain ⟨vl, vr, -, rfl⟩ := eq_compareBranch_of_parse hT hF hresult h htype
      exact .inr ⟨_, _, vl, vr, _, comment, rfl⟩

theorem branchTargets_eq (h : TwoWay T F i) : i.branchTargets = [T, F] := by
  obtain ⟨_, _, _, _, rfl⟩ | ⟨_, _, _, _, _, _, rfl⟩ := h.exists_eq <;> rfl

theorem isBranch (h : TwoWay T F i) : i.opcode.isBranch = true := by
  obtain ⟨_, _, _, _, rfl⟩ | ⟨_, _, _, _, _, _, rfl⟩ := h.exists_eq <;> rfl

theorem suffixText_eq_empty (h : TwoWay T F i) : i.suffixText = "" := by
  obtain ⟨_, _, _, _, rfl⟩ | ⟨_, _, _, _, _, _, rfl⟩ := h.exists_eq <;> rfl

theorem exists_body_eq (h : TwoWay T F i) :
    ∃ front, i.body = front ++ ", label %" ++ T ++ ", label %" ++ F := by
  have hlabel : ∀ x, ", " ++ ("label %" ++ x) = ", label %" ++ x := fun x =>
    String.append_assoc.symm
  obtain ⟨v, _, _, _, rfl⟩ | ⟨p, t, vl, vr, _, _, rfl⟩ := h.exists_eq
  · refine ⟨"br " ++ v.typedText, ?_⟩
    simp [body, Instruction.condBranch, typedList, Value.typedText_label, String.append_assoc,
      hlabel]
  · refine ⟨"bricmp " ++ p.keyword ++ " " ++ t ++ " " ++ bareList [vl, vr], ?_⟩
    simp [body, Instruction.compareBranch, predicateText, typedList, Value.typedText_label,
      String.append_assoc, hlabel]

/-- It is written with its targets at the end, the first one first. -/
theorem exists_text_eq (h : TwoWay T F i) :
    ∃ front, i.text = front ++ ", label %" ++ T ++ ", label %" ++ F := by
  obtain ⟨front, hfront⟩ := h.exists_body_eq
  refine ⟨i.resultText ++ front, ?_⟩
  rw [text, hfront, h.suffixText_eq_empty, String.append_empty]
  simp only [String.append_assoc]

end TwoWay

end Instruction

end SsaIr
