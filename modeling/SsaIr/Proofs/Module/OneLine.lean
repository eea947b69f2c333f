import SsaIr.Proofs.Instruction.OneLine
import SsaIr.Proofs.Module.RoundTrip

/-!
# Modules are written line by line

The lines of a module that was read, with its phis eliminated or not, have no line break inside,
also where the module is not read back.
-/

namespace SsaIr

open Text

variable {scope : List String} {line : List Char} {comment : Option String} {i : Instruction}
  {b : Block} {f : Function} {g : Global} {m : Module} {l : String} {style : LabelStyle}

theorem newline_code (hline : '\n' ∉ line) : '\n' ∉ trim (splitComment line).1 := by
  rw [← splitComment_append line, List.mem_append, not_or] at hline
  exact fun hmem => hline.1 (trim_subset _ hmem)

theorem IsComment.newline (h : IsComment comment) : '\n' ∉ (comment.getD "").toList := by
  cases comment with
  | none => decide
  | some c => exact (h c rfl).2

theorem newline_append {a c : String} (ha : '\n' ∉ a.toList) (hc : '\n' ∉ c.toList) :
    '\n' ∉ (a ++ c).toList := by
  rw [String.toList_append, List.mem_append, not_or]
  exact ⟨ha, hc⟩

theorem Instruction.FromLine.oneLine (h : FromLine scope i line) :
    i.OneLine ∧ IsComment i.comment := by
  obtain ⟨code, hline, hparse⟩ := h.ofLine
  obtain ⟨rfl, hcomment, -⟩ := Function.ofLine_eq_instruction hline
  rw [hcomment]
  refine ⟨?_, isComment_of_splitComment h.newline⟩
  exact { oneLine_of_parse hparse (newline_code h.newline) with }

theorem Instruction.Written.newline_line (h : i.Written scope) : '\n' ∉ i.line.toList := by
  have hparts : i.OneLine ∧ IsComment i.comment := by
    cases h with
    | line h => exact h.oneLine
    | @copy phi line name label v h hphi hname hmem =>
        obtain ⟨hphiLine, -⟩ := h.oneLine
        obtain ⟨hv, -⟩ := hphiLine.incoming _ hmem
        refine ⟨?_, by simp [IsComment, Instruction.copy]⟩
        refine { oneLine_fresh .copy with result := ?_, type := ?_, operands := ?_ }
        · rintro _ ⟨⟩
          exact hphiLine.result name hname
        · rintro _ ⟨⟩
          cases htype : phi.type with
          | none => exact hv.type
          | some t => exact hphiLine.type t htype
        · exact List.forall_mem_singleton.2 hv
  rw [Instruction.line, String.append_assoc]
  exact newline_append (by decide) (newline_append hparts.1.text hparts.2.newline)

theorem Block.Written.newline_lines (h : b.Written scope) (hl : l ∈ b.lines style) :
    '\n' ∉ l.toList := by
  rcases List.mem_cons.1 hl with rfl | hl
  · have hlabel := newline_of_isIdentifier h.label
    refine newline_append ?_ h.comment.newline
    split
    · exact newline_append (by decide) hlabel
    · exact newline_append hlabel (by decide)
  · obtain ⟨i, hi, rfl⟩ := List.mem_map.1 hl
    exact (h.instructions i hi).newline_line

/-- A header has its comment and its words from one line. -/
theorem Function.FromHeader.newline_headerLine (h : f.FromHeader line) : '\n' ∉ f.headerLine := by
  obtain ⟨hline, text, htop, hparse⟩ := h
  obtain ⟨-, hkeeps, -⟩ := header_reread hparse
  have htext : f.headerText =
      ({ f with blocks := [], comment := none } : Function).headerText := rfl
  obtain ⟨hcode, hcomment⟩ : (∃ lead, trim (splitComment line).1 = lead ++ text) ∧
      f.comment = (splitComment line).2.map String.ofList := by
    cases hd : f.isDeclaration with
    | true =>
        rw [hd] at htop
        obtain ⟨hcode, hcomment⟩ := Module.TopLine.describes_of_ofLine htop
        exact ⟨⟨_, hcode⟩, hcomment⟩
    | false =>
        rw [hd] at htop
        obtain ⟨hcode, hcomment⟩ := Module.TopLine.describes_of_ofLine htop
        exact ⟨⟨_, hcode⟩, hcomment⟩
  obtain ⟨lead, hcode⟩ := hcode
  have hheader : '\n' ∉ f.headerText := fun hmem =>
    newline_code hline (hcode ▸ List.mem_append_right _ (hkeeps.newline (htext ▸ hmem)))
  have hend : '\n' ∉ (f.comment.map String.toList).getD [] := by
    rw [← toList_getD_comment, hcomment]
    exact (isComment_of_splitComment hline).newline
  rw [headerLine, List.mem_append, List.mem_append, not_or, not_or]
  refine ⟨⟨?_, hheader⟩, hend⟩
  split <;> decide

theorem Global.newline_text {code : List Char} (h : parse code = .ok g) (hcode : '\n' ∉ code) :
    '\n' ∉ g.text.toList := by
  obtain ⟨front, rest, name, parts, g₁, g₂, body, hfront, hname, hparts, hg₁, hg₂, hvalue⟩ :=
    parse_eq_ok_iff.1 h
  obtain ⟨rfl, -⟩ := splitAt?_eq_some_iff.1 hfront
  simp only [List.mem_append, List.mem_cons, not_or] at hcode
  have hparts' := newline_of_splitOperands hparts hcode.2.2
  have hhead : '\n' ∉ parts.head?.getD [] := by
    cases parts with
    | nil => exact List.not_mem_nil
    | cons p ps => exact hparts' p List.mem_cons_self
  obtain ⟨⟨keys, hkeys, -⟩, -, hg₂'⟩ := readKeywords_eq_ok hg₂
  rw [hkeys, List.mem_append, not_or] at hhead
  have hg₁' := (foldlM_addSuffix_eq_ok hg₁).2
  have hgname : g.name = name := by rw [eq_of_addValue hvalue, hg₂', hg₁']
  have hbody : '\n' ∉ g.valueText := by
    rcases Bool.eq_false_or_eq_true g₂.isDeclaration with hdeclaration | hdeclaration
    · obtain ⟨-, rfl⟩ := (addValue_declaration_eq_ok_iff hdeclaration).1 hvalue
      have hnone : g₂.initializer = none := by rw [hg₂', hg₁']
      simpa [valueText, hnone] using hhead.2
    · obtain ⟨v, hv, rfl⟩ := (addValue_definition_eq_ok_iff hdeclaration).1 hvalue
      have hline := Value.oneLine_of_parseTyped hv hhead.2
      simp [valueText, hline.type, hline.text]
  have hsuffix : '\n' ∉ g.suffixText := by
    intro hmem
    obtain ⟨_, hpart, hmem⟩ := List.mem_flatMap.1 hmem
    obtain ⟨s, hs, rfl⟩ := List.mem_map.1 hpart
    simp only [List.mem_cons, Char.reduceEq, false_or] at hmem
    exact newline_of_plain (of_mem_suffixTexts hs).2.2 hmem
  have hident := newline_of_isIdentifier (sigilName?_eq_some hname).2
  rw [toList_text, keyText_eq, hgname]
  simp [hident, newline_of_plain (plain_keyText g), hbody, hsuffix]

theorem Global.Written.newline_line (h : g.Written) :
    '\n' ∉ (g.text ++ g.comment.getD "").toList := by
  obtain ⟨line, code, hline, htop, hparse⟩ := h
  obtain ⟨rfl, hcomment⟩ := Module.TopLine.describes_of_ofLine htop
  have htext : '\n' ∉ ({ g with comment := none } : Global).text.toList :=
    Global.newline_text hparse (newline_code hline)
  rw [hcomment]
  exact newline_append htext (isComment_of_splitComment hline).newline

/-- Lines of parts with lines between them. -/
theorem of_mem_intercalate {α : Type} {P : α → Prop} {sep : List α} {parts : List (List α)}
    (hsep : ∀ a ∈ sep, P a) (h : ∀ p ∈ parts, ∀ a ∈ p, P a) : ∀ a ∈ sep.intercalate parts, P a := by
  induction parts with
  | nil => simp
  | cons p parts ih =>
      obtain ⟨hp, hparts⟩ := List.forall_mem_cons.1 h
      cases parts with
      | nil => rwa [List.intercalate_singleton]
      | cons q parts =>
          rw [List.intercalate_cons_cons, List.forall_mem_append, List.forall_mem_append]
          exact ⟨⟨hp, hsep⟩, ih hparts⟩

theorem Function.Written.newline_definitionLines (h : f.Written) (hf : f.isDeclaration = false) :
    ∀ l ∈ f.definitionLines style, '\n' ∉ l.toList := by
  obtain ⟨line, hheader⟩ := h.header
  have hblocks : ∀ l ∈ [""].intercalate (f.blocks.map (Block.lines style)), '\n' ∉ l.toList := by
    refine of_mem_intercalate (by simp) (List.forall_mem_map.2 fun b hb l hl => ?_)
    exact (h.blocks b hb).newline_lines hl
  refine List.forall_mem_cons.2 ⟨?_, List.forall_mem_append.2 ⟨hblocks, by decide⟩⟩
  rw [toList_definitionLine hf]
  exact hheader.newline_headerLine

namespace Module

theorem forall_mem_withGap {ls : List String} {P : String → Prop} (hgap : P "")
    (h : ∀ l ∈ ls, P l) : ∀ l ∈ withGap ls, P l := by
  rw [withGap]
  split
  · simp
  · exact List.forall_mem_append.2 ⟨h, List.forall_mem_singleton.2 hgap⟩

theorem forall_mem_afterGap {ls : List String} {P : String → Prop} (hgap : P "")
    (h : ∀ l ∈ ls, P l) : ∀ l ∈ afterGap ls, P l := by
  rw [afterGap]
  split
  · simp
  · exact List.forall_mem_cons.2 ⟨hgap, h⟩

/-- No line of a module that was read has a line break inside. -/
theorem Written.newline_lines (h : m.Written) (style : LabelStyle) :
    ∀ l ∈ m.lines style, '\n' ∉ l.toList := by
  have hgap : '\n' ∉ "".toList := List.not_mem_nil
  have hid : ∀ t ∈ m.moduleId.toList, '\n' ∉ t.toList := by
    intro t ht
    obtain ⟨line, hline, htop⟩ := h.moduleId t (Option.mem_toList.1 ht)
    exact fun hmem => hline ((TopLine.ofLine_moduleId htop).1 hmem)
  have htarget : ∀ t ∈ m.targetInfo, '\n' ∉ t.toList := by
    intro t ht
    obtain ⟨line, hline, htop⟩ := h.targetInfo t ht
    exact (isLine_of_eq_trim (TopLine.ofLine_targetInfo htop).1 hline).newline
  have hmetadata : ∀ t ∈ m.metadata, '\n' ∉ t.toList := by
    intro t ht
    obtain ⟨line, hline, htop⟩ := h.metadata t ht
    exact (isLine_of_eq_trim (TopLine.ofLine_metadata htop).1 hline).newline
  have hdeclarations : ∀ l ∈ m.declarations.map Function.declarationLine, '\n' ∉ l.toList := by
    refine List.forall_mem_map.2 fun f hf => ?_
    obtain ⟨hmem, hdeclaration⟩ := List.mem_filter.1 hf
    obtain ⟨line, hheader⟩ := (h.functions f hmem).header
    rw [Function.toList_declarationLine hdeclaration]
    exact hheader.newline_headerLine
  have hglobals : ∀ l ∈ m.globals.map fun g => g.text ++ g.comment.getD "", '\n' ∉ l.toList :=
    List.forall_mem_map.2 fun g hg => (h.globals g hg).newline_line
  have hdefinitions : ∀ l ∈ [""].intercalate (m.definitions.map (Function.definitionLines style)),
      '\n' ∉ l.toList := by
    refine of_mem_intercalate (by simp) (List.forall_mem_map.2 fun f hf => ?_)
    obtain ⟨hmem, hdefinition⟩ := List.mem_filter.1 hf
    exact (h.functions f hmem).newline_definitionLines (by simpa using hdefinition)
  simp only [lines, List.forall_mem_append]
  exact ⟨⟨⟨⟨⟨hid, forall_mem_withGap hgap htarget⟩, forall_mem_withGap hgap hdeclarations⟩,
    forall_mem_withGap hgap hglobals⟩, hdefinitions⟩, forall_mem_afterGap hgap hmetadata⟩

end Module

end SsaIr
