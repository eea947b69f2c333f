import SsaIr.Proofs.Module.Reader

/-!
# Bodies are read back

A body is written block after block with blank lines between them. Its lines open the blocks and
add the instructions again.
-/

namespace SsaIr

open Text

/-- A block as functions that were read have it, with phis eliminated or not. -/
structure Block.Written (scope : List String) (b : Block) : Prop where
  label : isIdentifier b.label.toList = true
  comment : IsComment b.comment
  instructions : ∀ i ∈ b.instructions, i.Written scope

namespace Instruction

variable {scope : List String} {code : List Char} {i : Instruction}

theorem comment_of_parse (h : parse scope code = .ok i) : i.comment = none := by
  obtain ⟨result, s, tail, op, rest, i, -, -, hparse, rfl⟩ := parse_eq_ok_iff.1 h
  exact (isFresh_parseRest hparse).2.2.2

end Instruction

namespace Function

variable {f g : Function} {b : Block} {l : List Char} {scope : List String} {style : LabelStyle}
  {m : Module} {i : Instruction}

/-! ## What was read -/

/-- A body as functions that were read have it, with phis eliminated or not. -/
structure WrittenBody (f : Function) : Prop where
  blocks : ∀ b ∈ f.blocks, b.Written f.parameterNames
  labels : f.labels.Nodup

theorem isComment_of_ofLine {name : List Char} {comment : Option String} (hl : '\n' ∉ l)
    (h : BodyLine.ofLine l = .label name comment) : IsComment comment := by
  rcases ofLine_eq_label h with ⟨further, hfurther, rfl⟩ | rfl
  · refine isComment_of_labelComment? (fun hmem => hl ?_) hfurther
    rw [← splitComment_append l]
    exact List.mem_append_right _ (trim_subset _ hmem)
  · exact isComment_of_splitComment hl

theorem blockIndex?_isSome_iff {label : String} :
    (f.blockIndex? label).isSome = true ↔ label ∈ f.labels := by
  rw [← not_iff_not, Bool.not_eq_true, Option.isSome_eq_false_iff, Option.isNone_iff_eq_none,
    blockIndex?_eq_none_iff]

theorem openBlock_eq_ok_iff {name : List Char} {comment : Option String} :
    f.openBlock name comment = .ok g ↔ isIdentifier name = true ∧
      String.ofList name ∉ f.labels ∧ g = f.addBlock { label := String.ofList name, comment } := by
  unfold openBlock
  cases hname : isIdentifier name with
  | false => simp
  | true =>
      by_cases hlabel : String.ofList name ∈ f.labels
      · simp [blockIndex?_isSome_iff.2 hlabel, hlabel]
      · have hnone := Bool.eq_false_iff.2 (mt blockIndex?_isSome_iff.1 hlabel)
        simp [hnone, hlabel, eq_comm]

theorem WrittenBody.addBlock (h : f.WrittenBody) (hb : b.Written f.parameterNames)
    (hlabel : b.label ∉ f.labels) : (f.addBlock b).WrittenBody where
  blocks := by
    intro c hc
    rcases List.mem_append.1 hc with hc | hc
    · exact h.blocks c hc
    · rwa [List.mem_singleton.1 hc]
  labels := by
    rw [labels_addBlock]
    exact List.nodup_append.2 ⟨h.labels, by simp, fun a ha c hc => by
      rw [List.mem_singleton.1 hc]
      rintro rfl
      exact hlabel ha⟩

theorem addInstruction_of_nil (h : f.blocks = []) :
    f.addInstruction i = f.addBlock { label := "0", instructions := [i] } := by
  rw [addInstruction, h, addBlock, h]
  rfl

theorem addInstruction_of_concat {bs : List Block} (h : f.blocks = bs ++ [b]) :
    f.addInstruction i = { f with blocks := bs ++ [b.add i] } := by
  rw [addInstruction, h, List.getLast?_concat, List.dropLast_concat]

theorem addInstruction_eq (f : Function) (i : Instruction) :
    f.addInstruction i = { f with blocks := (f.addInstruction i).blocks } := by
  rw [addInstruction]
  split <;> rfl

theorem WrittenBody.addInstruction (h : f.WrittenBody) (hi : i.Written f.parameterNames) :
    (f.addInstruction i).WrittenBody := by
  rcases List.eq_nil_or_concat f.blocks with hnil | ⟨bs, b, hconcat⟩
  · rw [addInstruction_of_nil hnil]
    refine h.addBlock ⟨(rfl : isIdentifier "0".toList = true), by simp [IsComment],
      by simpa using hi⟩ ?_
    rw [Function.labels, hnil]
    exact List.not_mem_nil
  · rw [List.concat_eq_append] at hconcat
    rw [addInstruction_of_concat hconcat]
    obtain ⟨hblocks, hlabels⟩ := h
    rw [hconcat] at hblocks
    constructor
    · intro c hc
      rcases List.mem_append.1 hc with hc | hc
      · exact hblocks c (List.mem_append_left _ hc)
      · obtain rfl := List.mem_singleton.1 hc
        obtain ⟨hlabel, hcomment, hinstructions⟩ := hblocks b (by simp)
        refine ⟨hlabel, hcomment, fun j hj => ?_⟩
        rcases List.mem_append.1 hj with hj | hj
        · exact hinstructions j hj
        · rwa [List.mem_singleton.1 hj]
    · rw [Function.labels, hconcat, List.map_append] at hlabels
      rw [Function.labels, List.map_append]
      exact hlabels

/-- What a line of the body adds is written as lines have it; nothing but blocks changes. -/
theorem WrittenBody.addBodyLine (h : f.WrittenBody) (hl : '\n' ∉ l)
    (hadd : f.addBodyLine (BodyLine.ofLine l) = .ok g) :
    g.WrittenBody ∧ g = { f with blocks := g.blocks } := by
  cases hline : BodyLine.ofLine l with
  | blank =>
      rw [hline] at hadd
      obtain rfl := Except.ok.inj hadd
      exact ⟨h, rfl⟩
  | close =>
      rw [hline] at hadd
      obtain rfl := Except.ok.inj hadd
      exact ⟨h, rfl⟩
  | label name comment =>
      rw [hline] at hadd
      obtain ⟨hname, hlabel, rfl⟩ := openBlock_eq_ok_iff.1 hadd
      refine ⟨h.addBlock ⟨?_, isComment_of_ofLine hl hline, by simp⟩ hlabel, rfl⟩
      rwa [String.toList_ofList]
  | instruction code comment =>
      rw [hline] at hadd
      obtain ⟨i, hi, rfl⟩ := map_eq_ok_iff.1 hadd
      refine ⟨h.addInstruction (.line ⟨hl, code, hline, ?_⟩), ?_⟩
      · rw [hi, ← Instruction.comment_of_parse hi]
      · exact addInstruction_eq f _

/-! ## Reading what is written -/

open SsaIr.Module.Reader (Rereads)

/-- A line of a body, other than the one that closes it, adds what it says. -/
theorem step_body (hline : BodyLine.ofLine l ≠ .close) :
    ({ module := m, current := some f } : Module.Reader).step l =
      (f.addBodyLine (BodyLine.ofLine l)).map fun f => { module := m, current := some f } := by
  rw [Module.Reader.step]
  dsimp only
  split
  · next h => exact absurd h hline
  · rfl

theorem rereads_label (style : LabelStyle) (hb : b.Written scope) (hregular : b.isRegular = true)
    (hlabel : b.label ∉ f.labels) :
    Rereads { module := m, current := some f } [b.labelLine style]
      { module := m, current := some (f.addBlock { b with instructions := [] }) } := by
  obtain ⟨hisLine, hline⟩ := labelLine_reread style hb.label hb.comment hregular
  apply Rereads.singleton hisLine
  rw [step_body (by rw [hline]; simp), hline]
  have hopen : f.openBlock b.label.toList b.comment = .ok (f.addBlock
      { label := String.ofList b.label.toList, comment := b.comment }) :=
    openBlock_eq_ok_iff.2 ⟨hb.label, by rwa [String.ofList_toList], rfl⟩
  rw [addBodyLine, hopen, String.ofList_toList]
  rfl

/-- An instruction is added to the last block. -/
theorem rereads_instruction (h : i.RereadLine f.parameterNames) :
    Rereads { module := m, current := some (f.addBlock b) } [i.line]
      { module := m, current := some (f.addBlock (b.add i)) } := by
  apply Rereads.singleton h.isLine
  have hparse : Instruction.parse (f.addBlock b).parameterNames i.text.toList =
      .ok { i with comment := none } := h.parse
  have hadd : (f.addBlock b).addInstruction i = f.addBlock (b.add i) :=
    addInstruction_of_concat rfl
  rw [step_body (by rw [h.ofLine]; simp), h.ofLine, addBodyLine, hparse]
  exact congrArg (fun g => (.ok ⟨m, some g⟩ : Except ParseError Module.Reader)) hadd

/-- A block is read again behind others with other labels. -/
theorem rereads_block (style : LabelStyle) (hb : b.Written f.parameterNames)
    (hregular : b.isRegular = true) (hlabel : b.label ∉ f.labels) :
    Rereads { module := m, current := some f } (b.lines style)
      { module := m, current := some (f.addBlock b) } := by
  refine (rereads_label style hb hregular hlabel).append (Rereads.map
    (fun is => { module := m, current := some (f.addBlock { b with instructions := is }) })
    Instruction.line fun front i back his => ?_)
  rw [Block.isRegular, Bool.and_eq_true, List.all_eq_true] at hregular
  have hi : i ∈ b.instructions := by
    rw [his]
    simp
  exact rereads_instruction ((hb.instructions i hi).rereadLine (hregular.2 i hi))

/-- Blocks are read again, with blank lines between them. -/
theorem rereads_blocks (style : LabelStyle) (h : f.WrittenBody)
    (hregular : f.blocks.all Block.isRegular = true) :
    Rereads { module := m, current := some { f with blocks := [] } }
      ([""].intercalate (f.blocks.map (Block.lines style)))
      { module := m, current := some f } := by
  refine Rereads.intercalate (fun bs => { module := m, current := some { f with blocks := bs } })
    (Block.lines style) [""] (fun _ => .blank rfl) fun front b back hbs => ?_
  have hb : b ∈ f.blocks := by
    rw [hbs]
    simp
  have hlabel : b.label ∉ front.map Block.label := by
    have hnodup := h.labels
    rw [labels, hbs, List.map_append, List.map_cons] at hnodup
    exact fun hmem => (List.nodup_append.1 hnodup).2.2 _ hmem _ List.mem_cons_self rfl
  exact rereads_block (f := { f with blocks := front }) style (h.blocks b hb)
    (List.all_eq_true.1 hregular b hb) hlabel

end Function

end SsaIr
