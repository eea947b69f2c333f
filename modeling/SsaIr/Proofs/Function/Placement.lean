import SsaIr.Proofs.Function.Body

/-!
# Where the lines of a body go

Each line of a body that holds an instruction gives one instruction, and each line that opens a
block gives one block. An instruction stands in the block opened by the last such line in front of
it, behind the instructions that come between the two; in front of all such lines it stands in a
block of its own, labelled `0`. So nothing in a body is lost, doubled or moved.
-/

namespace SsaIr.Function

open Text

/-! ## Lines -/

/-- The code and the comment of a line that holds an instruction: its code is there, and neither is
a closing brace nor ends in a colon. -/
def instructionLine? (line : List Char) : Option (List Char × Option String) :=
  let (code, comment) := splitComment line
  let code := trim code
  if code ≠ [] ∧ code ≠ ['\x7d'] ∧ code.getLast? ≠ some ':' then
    some (code, comment.map String.ofList)
  else none

/-- The label of the block that a line opens: it stands in front of a colon, or, in a line without
code, in a comment `; <label>:N`. -/
def openedLabel? (line : List Char) : Option String :=
  let (code, comment) := splitComment line
  let code := trim code
  if code = [] then (labelComment? (trim (comment.getD []))).map fun named => String.ofList named.1
  else (before? [':'] code).map fun name => String.ofList (trim name)

/-- Whether the code of a line is a closing brace. -/
def isClosing (line : List Char) : Bool := trim (splitComment line).1 == ['\x7d']

/-- A line opens a block, or holds an instruction, or closes the body, or says nothing. -/
theorem ofLine_kind (line : List Char) :
    match BodyLine.ofLine line with
    | .blank => isClosing line = false ∧ openedLabel? line = none ∧ instructionLine? line = none
    | .close => isClosing line = true
    | .label name _ => isClosing line = false ∧ openedLabel? line = some (String.ofList name) ∧
        instructionLine? line = none
    | .instruction code comment => isClosing line = false ∧ openedLabel? line = none ∧
        instructionLine? line = some (code, comment) := by
  rw [BodyLine.ofLine, isClosing, openedLabel?, instructionLine?]
  dsimp only
  generalize trim (splitComment line).1 = code
  by_cases hempty : code = []
  · subst hempty
    cases labelComment? (trim ((splitComment line).2.getD [])) with
    | none => simp
    | some named => simp
  · by_cases hclose : code = ['\x7d']
    · simp [hclose]
    · cases hname : before? [':'] code with
      | some name => simp [hempty, hclose, getLast?_of_before? hname]
      | none =>
          have hlast : code.getLast? ≠ some ':' := by
            intro hlast
            obtain ⟨front, hfront⟩ := List.getLast?_eq_some_iff.1 hlast
            rw [before?_eq_some_iff.2 hfront] at hname
            cases hname
          simp [hempty, hclose, hlast]

theorem ofLine_ne_close {line : List Char} (h : isClosing line = false) :
    BodyLine.ofLine line ≠ .close := by
  intro hline
  have hkind := ofLine_kind line
  rw [hline] at hkind
  rw [h] at hkind
  cases hkind

theorem ofLine_eq_close {line : List Char} (h : isClosing line = true) :
    BodyLine.ofLine line = .close := by
  have hkind := ofLine_kind line
  rw [h] at hkind
  cases hline : BodyLine.ofLine line with
  | close => rfl
  | _ =>
      rw [hline] at hkind
      cases hkind.1

/-- Read an instruction from its code; the comment of the line is its comment. -/
def readInstruction (scope : List String) (line : List Char × Option String) :
    Except ParseError Instruction :=
  (Instruction.parse scope line.1).map fun i => { i with comment := line.2 }

/-! ## Lists of lines -/

/-- Whether an instruction stands in front of all lines that open a block. -/
def startsUnlabelled (lines : List (List Char)) : Bool :=
  (lines.find? fun l => (openedLabel? l).isSome || (instructionLine? l).isSome).any fun l =>
    (instructionLine? l).isSome

/-- The label of the block that is open behind the lines: that of the last line that opens one, and
`0` without such a line. -/
def openLabel (lines : List (List Char)) : String :=
  (lines.filterMap openedLabel?).getLast?.getD "0"

/-- The number of instructions behind the last line that opens a block. -/
def openSize (lines : List (List Char)) : Nat :=
  (lines.reverse.takeWhile fun l => (openedLabel? l).isNone).countP fun l =>
    (instructionLine? l).isSome

section Concat

variable {lines : List (List Char)} {l : List Char} {name : String}

theorem openSize_of_opened (h : openedLabel? l = some name) : openSize (lines ++ [l]) = 0 := by
  simp [openSize, h]

theorem openSize_of_not_opened (h : openedLabel? l = none) :
    openSize (lines ++ [l]) = openSize lines + if (instructionLine? l).isSome then 1 else 0 := by
  simp [openSize, h, List.countP_cons]

theorem openLabel_of_not_opened (h : openedLabel? l = none) :
    openLabel (lines ++ [l]) = openLabel lines := by
  simp [openLabel, h]

end Concat

/-- A body read line by line: its instructions, its labels, and where the instructions stand. -/
structure ReadsBody (f : Function) (lines : List (List Char)) : Prop where
  instructions : (lines.filterMap instructionLine?).mapM (readInstruction f.parameterNames) =
    .ok f.instructions
  labels : f.labels =
    (if startsUnlabelled lines then ["0"] else []) ++ lines.filterMap openedLabel?
  distinct : f.labels.Nodup
  size : ∀ b, f.blocks.getLast? = some b → b.size = openSize lines
  placed : ∀ front line back code, lines = front ++ line :: back →
    instructionLine? line = some code →
      ∃ block i, f.labels[block]? = some (openLabel front) ∧
        readInstruction f.parameterNames code = .ok i ∧
          f.instruction? ⟨block, openSize front⟩ = some i

variable {f g : Function} {b : Block} {i : Instruction} {lines : List (List Char)} {l : List Char}
  {p : Position} {name : String}

/-! ## One more block, one more instruction -/

theorem instructions_addBlock (f : Function) (b : Block) :
    (f.addBlock b).instructions = f.instructions ++ b.instructions := by
  simp [instructions, addBlock]

theorem instruction?_addBlock (h : f.instruction? p = some i) :
    (f.addBlock b).instruction? p = some i := by
  obtain ⟨c, hc, hi⟩ := Option.bind_eq_some_iff.1 h
  have hlt := (List.getElem?_eq_some_iff.1 hc).1
  rw [instruction?, addBlock, List.getElem?_append_left hlt, hc]
  exact hi

theorem instruction?_add {bs : List Block} {j : Instruction} (hblocks : f.blocks = bs ++ [b])
    (h : f.instruction? p = some j) :
    ({ f with blocks := bs ++ [b.add i] } : Function).instruction? p = some j := by
  obtain ⟨c, hc, hj⟩ := Option.bind_eq_some_iff.1 h
  rw [hblocks] at hc
  rw [instruction?]
  by_cases hlt : p.block < bs.length
  · rw [List.getElem?_append_left hlt] at hc
    rw [List.getElem?_append_left hlt, hc]
    exact hj
  · have hle := Nat.le_of_not_lt hlt
    rw [List.getElem?_append_right hle, List.getElem?_singleton,
      Option.ite_none_right_eq_some] at hc
    obtain ⟨hlast, hbc⟩ := hc
    obtain rfl := Option.some.inj hbc
    rw [List.getElem?_append_right hle, hlast]
    exact (List.getElem?_append_left (List.getElem?_eq_some_iff.1 hj).1).trans hj

/-- An instruction is added behind all others, and the other ones stay where they are. -/
structure Adds (f : Function) (i : Instruction) (g : Function) : Prop where
  instructions : g.instructions = f.instructions ++ [i]
  labels : g.labels = if f.blocks = [] then ["0"] else f.labels
  kept : ∀ p j, f.instruction? p = some j → g.instruction? p = some j
  last : ∃ b, g.blocks.getLast? = some b ∧
    b.size = (f.blocks.getLast?.map Block.size).getD 0 + 1 ∧
      g.instruction? ⟨g.blocks.length - 1, (f.blocks.getLast?.map Block.size).getD 0⟩ = some i

theorem adds_addInstruction (f : Function) (i : Instruction) : f.Adds i (f.addInstruction i) := by
  rcases List.eq_nil_or_concat f.blocks with hnil | ⟨bs, b, hconcat⟩
  · rw [addInstruction_of_nil hnil]
    refine ⟨instructions_addBlock f _, ?_, fun p j hj => instruction?_addBlock hj, ?_⟩
    · simp [labels, addBlock, hnil]
    · refine ⟨{ label := "0", instructions := [i] }, ?_, ?_, ?_⟩
      · simp [addBlock]
      · simp [hnil, Block.size]
      · simp [addBlock, hnil, instruction?]
  · rw [List.concat_eq_append] at hconcat
    rw [addInstruction_of_concat hconcat]
    have hne : f.blocks ≠ [] := by simp [hconcat]
    refine ⟨?_, ?_, fun p j hj => ?_, b.add i, ?_, ?_, ?_⟩
    · simp [instructions, hconcat, Block.add]
    · rw [if_neg hne, labels, labels, hconcat, List.map_append, List.map_append]
      rfl
    · exact instruction?_add hconcat hj
    · rw [List.getLast?_concat]
    · simp [hconcat, Block.size_add]
    · simp [hconcat, instruction?, Block.add, Block.size]

/-! ## One more line -/

/-- A line of a body changes nothing but the blocks. -/
theorem eq_of_addBodyLine {line : BodyLine} (h : f.addBodyLine line = .ok g) :
    g = { f with blocks := g.blocks } := by
  cases line with
  | blank =>
      cases h
      rfl
  | close =>
      cases h
      rfl
  | label name comment =>
      obtain ⟨-, -, rfl⟩ := openBlock_eq_ok_iff.1 h
      rfl
  | instruction code comment =>
      obtain ⟨i, -, rfl⟩ := map_eq_ok_iff.1 h
      exact addInstruction_eq f _

theorem startsUnlabelled_of_none (h : instructionLine? l = none) :
    startsUnlabelled (lines ++ [l]) = startsUnlabelled lines := by
  rw [startsUnlabelled, startsUnlabelled, List.find?_append]
  cases lines.find? fun l => (openedLabel? l).isSome || (instructionLine? l).isSome with
  | some first => rfl
  | none => cases hl : openedLabel? l <;> simp [h, hl]

theorem startsUnlabelled_of_instruction (h : (instructionLine? l).isSome = true) :
    startsUnlabelled (lines ++ [l]) =
      (startsUnlabelled lines || (lines.filterMap openedLabel?).isEmpty) := by
  rw [startsUnlabelled, startsUnlabelled, List.find?_append]
  cases hfirst : lines.find? fun l => (openedLabel? l).isSome || (instructionLine? l).isSome with
  | some first =>
      have hsome := List.find?_some hfirst
      rw [Option.some_or, Option.any_some]
      cases hinstruction : (instructionLine? first).isSome with
      | true => rfl
      | false =>
          rw [hinstruction, Bool.or_false] at hsome
          obtain ⟨name, hname⟩ := Option.isSome_iff_exists.1 hsome
          have hmem : name ∈ lines.filterMap openedLabel? :=
            List.mem_filterMap.2 ⟨first, List.mem_of_find?_eq_some hfirst, hname⟩
          rw [Bool.false_or, eq_comm, List.isEmpty_eq_false_iff]
          exact List.ne_nil_of_mem hmem
  | none =>
      have hnone : lines.filterMap openedLabel? = [] := by
        apply List.filterMap_eq_nil_iff.2
        intro x hx
        have hx := List.find?_eq_none.1 hfirst x hx
        rw [Bool.or_eq_true, not_or] at hx
        exact Option.not_isSome_iff_eq_none.1 hx.1
      simp [h, hnone]

theorem filterMap_concat_none {α β : Type} {k : α → Option β} {as : List α} {a : α}
    (h : k a = none) : (as ++ [a]).filterMap k = as.filterMap k := by simp [h]

theorem filterMap_concat_some {α β : Type} {k : α → Option β} {as : List α} {a : α} {c : β}
    (h : k a = some c) : (as ++ [a]).filterMap k = as.filterMap k ++ [c] := by simp [h]

/-- The last block is the one that is open. -/
theorem label_eq_openLabel (h : f.labels =
      (if startsUnlabelled lines then ["0"] else []) ++ lines.filterMap openedLabel?)
    (hb : f.blocks.getLast? = some b) : b.label = openLabel lines := by
  have hlast : f.labels.getLast? = some b.label := by
    rw [Function.labels, List.getLast?_map, hb]
    rfl
  rw [h, List.getLast?_append] at hlast
  rw [openLabel]
  cases hopened : (lines.filterMap openedLabel?).getLast? with
  | some name =>
      rw [hopened] at hlast
      exact (Option.some.inj hlast).symm
  | none =>
      rw [hopened, Option.none_or] at hlast
      split at hlast
      · exact (Option.some.inj hlast).symm
      · cases hlast

namespace ReadsBody

theorem nil (h : f.blocks = []) : f.ReadsBody [] where
  instructions := by rw [Function.instructions, h]; rfl
  labels := by rw [Function.labels, h]; rfl
  distinct := by rw [Function.labels, h]; exact List.nodup_nil
  size b hb := by rw [h] at hb; cases hb
  placed front line back code hsplit := by simp at hsplit

theorem blocks_eq_nil_iff (h : f.ReadsBody lines) : f.blocks = [] ↔
    startsUnlabelled lines = false ∧ lines.filterMap openedLabel? = [] := by
  rw [← List.map_eq_nil_iff (f := Block.label), ← Function.labels, h.labels,
    List.append_eq_nil_iff]
  cases startsUnlabelled lines <;> simp

/-- Without a block there is no instruction in front of which a label is missing. -/
theorem openSize_eq_zero (h : f.ReadsBody lines) (hnil : f.blocks = []) : openSize lines = 0 := by
  have hall := mapM_eq_ok_iff.1 h.instructions
  rw [Function.instructions, hnil, List.flatMap_nil, List.forall₂_nil_right_iff,
    List.filterMap_eq_nil_iff] at hall
  rw [openSize, List.countP_eq_zero]
  intro l hl
  rw [hall l (List.mem_reverse.1 (List.takeWhile_subset _ hl))]
  exact Bool.false_ne_true

/-- What is placed stays, and a new instruction line has its own place. -/
theorem placed_concat (h : f.ReadsBody lines) (hscope : g.parameterNames = f.parameterNames)
    (hlabels : f.labels <+: g.labels)
    (hkept : ∀ p i, f.instruction? p = some i → g.instruction? p = some i)
    (hnew : ∀ code, instructionLine? l = some code →
      ∃ block i, g.labels[block]? = some (openLabel lines) ∧
        readInstruction f.parameterNames code = .ok i ∧
          g.instruction? ⟨block, openSize lines⟩ = some i) :
    ∀ front line back code, lines ++ [l] = front ++ line :: back →
      instructionLine? line = some code →
        ∃ block i, g.labels[block]? = some (openLabel front) ∧
          readInstruction g.parameterNames code = .ok i ∧
            g.instruction? ⟨block, openSize front⟩ = some i := by
  intro front line back code hsplit hcode
  rw [hscope]
  rcases List.eq_nil_or_concat back with rfl | ⟨behind, l', rfl⟩
  · obtain ⟨rfl, hl⟩ := List.append_inj' hsplit rfl
    obtain rfl := (List.cons.inj hl).1
    exact hnew code hcode
  · rw [List.concat_eq_append, ← List.cons_append, ← List.append_assoc] at hsplit
    obtain ⟨hlines, -⟩ := List.append_inj' hsplit rfl
    obtain ⟨block, i, hlabel, hread, hi⟩ := h.placed front line behind code hlines hcode
    refine ⟨block, i, ?_, hread, hkept _ i hi⟩
    obtain ⟨more, hmore⟩ := hlabels
    rw [← hmore, List.getElem?_append_left (List.getElem?_eq_some_iff.1 hlabel).1, hlabel]

theorem silent (h : f.ReadsBody lines) (hopened : openedLabel? l = none)
    (hnone : instructionLine? l = none) : f.ReadsBody (lines ++ [l]) where
  instructions := by
    rw [filterMap_concat_none hnone]
    exact h.instructions
  labels := by
    rw [startsUnlabelled_of_none hnone, filterMap_concat_none hopened]
    exact h.labels
  distinct := h.distinct
  size b hb := by
    rw [openSize_of_not_opened hopened, hnone]
    exact h.size b hb
  placed := h.placed_concat rfl (List.prefix_refl _) (fun _ _ hi => hi) fun code hcode => by
    rw [hnone] at hcode
    cases hcode

theorem opens (h : f.ReadsBody lines) (hopened : openedLabel? l = some name)
    (hnone : instructionLine? l = none) (hnew : name ∉ f.labels) (comment : Option String) :
    (f.addBlock { label := name, comment }).ReadsBody (lines ++ [l]) where
  instructions := by
    rw [filterMap_concat_none hnone, instructions_addBlock, List.append_nil]
    exact h.instructions
  labels := by
    rw [startsUnlabelled_of_none hnone, filterMap_concat_some hopened, labels_addBlock, h.labels,
      List.append_assoc]
  distinct := by
    rw [labels_addBlock, List.nodup_append]
    refine ⟨h.distinct, by simp, fun a ha c hc => ?_⟩
    rw [List.mem_singleton.1 hc]
    rintro rfl
    exact hnew ha
  size b hb := by
    rw [addBlock, List.getLast?_concat] at hb
    obtain rfl := Option.some.inj hb
    rw [openSize_of_opened hopened]
    rfl
  placed := by
    refine h.placed_concat rfl ?_ (fun _ _ hi => instruction?_addBlock hi) fun code hcode => ?_
    · rw [labels_addBlock]
      exact List.prefix_append _ _
    · rw [hnone] at hcode
      cases hcode

/-- The first instruction opens a block, unless a line in front of it has opened one. -/
theorem labels_of_adds (h : f.ReadsBody lines) (hopened : openedLabel? l = none)
    (hisSome : (instructionLine? l).isSome = true)
    (hlabels : g.labels = if f.blocks = [] then ["0"] else f.labels) :
    g.labels = (if startsUnlabelled (lines ++ [l]) then ["0"] else []) ++
      (lines ++ [l]).filterMap openedLabel? := by
  rw [hlabels, startsUnlabelled_of_instruction hisSome, filterMap_concat_none hopened]
  by_cases hnil : f.blocks = []
  · rw [if_pos hnil, (h.blocks_eq_nil_iff.1 hnil).2]
    simp
  · rw [if_neg hnil, h.labels]
    have hsome := mt h.blocks_eq_nil_iff.2 hnil
    cases hstarts : startsUnlabelled lines with
    | true => rfl
    | false =>
        have hne : lines.filterMap openedLabel? ≠ [] := fun h => hsome ⟨hstarts, h⟩
        rw [List.isEmpty_eq_false_iff.2 hne]
        rfl

/-- The next instruction goes behind those that the open block has. -/
theorem size_eq_openSize (h : f.ReadsBody lines) :
    (f.blocks.getLast?.map Block.size).getD 0 = openSize lines := by
  cases hlast : f.blocks.getLast? with
  | none => exact (h.openSize_eq_zero (List.getLast?_eq_none_iff.1 hlast)).symm
  | some b => exact h.size b hlast

theorem adds {code : List Char × Option String} (h : f.ReadsBody lines)
    (hopened : openedLabel? l = none) (hcode : instructionLine? l = some code)
    (hread : readInstruction f.parameterNames code = .ok i) :
    (f.addInstruction i).ReadsBody (lines ++ [l]) := by
  have hscope : (f.addInstruction i).parameterNames = f.parameterNames := by
    rw [addInstruction_eq]
    rfl
  have hisSome : (instructionLine? l).isSome = true := by rw [hcode]; rfl
  obtain ⟨hinstructions, hlabels, hkept, b, hb, hsize, hi⟩ := adds_addInstruction f i
  rw [h.size_eq_openSize] at hsize hi
  have hall := h.labels_of_adds hopened hisSome hlabels
  have hlabel := label_eq_openLabel hall hb
  rw [openLabel_of_not_opened hopened] at hlabel
  constructor
  · rw [filterMap_concat_some hcode, hscope, hinstructions]
    exact mapM_eq_ok_iff.2
      (List.rel_append (mapM_eq_ok_iff.1 h.instructions) (.cons hread .nil))
  · exact hall
  · rw [hlabels]
    split
    · simp
    · exact h.distinct
  · intro c hc
    obtain rfl := Option.some.inj (hb.symm.trans hc)
    rw [openSize_of_not_opened hopened, hisSome, hsize]
    rfl
  · refine h.placed_concat hscope ?_ hkept fun code' hcode' => ?_
    · rw [hlabels]
      split
      · next hnil => simp [Function.labels, hnil]
      · exact List.prefix_refl _
    · obtain rfl := Option.some.inj (hcode.symm.trans hcode')
      refine ⟨_, i, ?_, hread, hi⟩
      rw [← hlabel, Function.labels, List.getElem?_map, ← List.getLast?_eq_getElem?, hb]
      rfl

/-- What holds of the lines read so far holds with one more. -/
theorem step (h : f.ReadsBody lines) (hadd : f.addBodyLine (BodyLine.ofLine l) = .ok g)
    (hclosing : isClosing l = false) : g.ReadsBody (lines ++ [l]) := by
  have hkind := ofLine_kind l
  cases hline : BodyLine.ofLine l with
  | blank =>
      rw [hline] at hkind hadd
      obtain rfl := Except.ok.inj hadd
      exact h.silent hkind.2.1 hkind.2.2
  | close =>
      rw [hline] at hkind
      rw [hclosing] at hkind
      cases hkind
  | label name comment =>
      rw [hline] at hkind hadd
      obtain ⟨-, hnew, rfl⟩ := openBlock_eq_ok_iff.1 hadd
      exact h.opens hkind.2.1 hkind.2.2 hnew comment
  | instruction code comment =>
      rw [hline] at hkind hadd
      obtain ⟨i, hi, rfl⟩ := map_eq_ok_iff.1 hadd
      exact h.adds hkind.2.1 hkind.2.2 (by rw [readInstruction, hi]; rfl)

end ReadsBody

end SsaIr.Function
