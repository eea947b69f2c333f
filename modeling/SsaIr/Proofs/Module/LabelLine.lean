import SsaIr.Proofs.Module.Layout

/-!
# Lines of both label styles

The texts of a module in both label styles differ in the lines that open blocks with numeric
labels. Such a line and its counterpart are read alike, but of the comment behind the label the
comment line keeps no blanks at the end. How all other lines are read is told by how they start.
-/

namespace SsaIr

open Text
open SsaIr.Module (TopLine)
open SsaIr.Function (BodyLine)

variable {a b s t : List Char} {c : Char} {comment : Option String} {change : String → String}

/-! ## Comments behind labels -/

/-- A line, or the comment at its end, as it is read from a text. -/
def chomped (s : String) : String := String.ofList (chomp s.toList)

/-- The comment without blanks at its end. -/
def trimComment (comment : String) : String := String.ofList (trimEnd comment.toList)

/-- Change the comments behind numeric labels, and no others. -/
def CommentRule.numbered (change : String → String) : CommentRule where
  block label comment := if isNumeric label.toList then comment.map change else comment
  other comment := comment
  block_none label := by split <;> rfl

theorem CommentRule.numbered_block {label : String} (h : isNumeric label.toList = false)
    (comment : Option String) : (numbered change).block label comment = comment :=
  if_neg (by simp [h])

theorem Module.TopLine.recomment_numbered (top : TopLine) :
    top.recomment (.numbered change) = top := by
  cases top <;> rfl

/-- The change makes of a comment behind a numeric label what a comment line keeps of it. -/
def Block.TrimmedBy (b : Block) (change : String → String) : Prop :=
  b.hasNumericLabel = true → ∀ c ∈ b.comment, change (chomped c) = trimComment c

theorem Text.exists_chomp (s : List Char) : ∃ blanks, Blanks blanks ∧ s = chomp s ++ blanks := by
  unfold chomp
  split
  · next hlast =>
      refine ⟨['\r'], by decide, ?_⟩
      obtain ⟨front, rfl⟩ := List.getLast?_eq_some_iff.1 hlast
      rw [List.dropLast_concat]
  · exact ⟨[], by decide, (List.append_nil s).symm⟩

theorem Text.trimEnd_chomp (s : List Char) : trimEnd (chomp s) = trimEnd s := by
  obtain ⟨blanks, hblanks, hs⟩ := exists_chomp s
  conv_rhs => rw [hs, trimEnd_append_of_blanks hblanks]

theorem trimComment_chomped (c : String) : trimComment (chomped c) = trimComment c := by
  rw [trimComment, chomped, String.toList_ofList, trimEnd_chomp, trimComment]

/-- A comment without blanks at its end is a comment. -/
theorem isComment_of_append_blanks (h : IsComment (some (String.ofList (s ++ b))))
    (hb : Blanks b) : IsComment (some (String.ofList s)) := by
  obtain ⟨⟨lead, r, hlead, hsplit⟩, hnewline⟩ := h _ rfl
  rw [String.toList_ofList] at hsplit hnewline
  have hsemicolon : ';' ∉ b := fun hmem => absurd (hb _ hmem) (by decide)
  rintro _ ⟨⟩
  rw [String.toList_ofList]
  refine ⟨?_, fun hmem => hnewline (List.mem_append_left _ hmem)⟩
  rcases List.append_eq_append_iff.1 hsplit with ⟨x, -, rfl⟩ | ⟨x, rfl, hx⟩
  · exact absurd (by simp) hsemicolon
  · cases x with
    | nil =>
        rw [List.nil_append] at hx
        exact absurd (hx ▸ List.mem_cons_self) hsemicolon
    | cons d x =>
        obtain ⟨rfl, -⟩ := List.cons.inj hx
        exact ⟨lead, x, hlead, rfl⟩

theorem IsComment.chomp (h : IsComment comment) : IsComment (comment.map chomped) := by
  cases comment with
  | none => exact h
  | some c =>
      obtain ⟨blanks, hblanks, hc⟩ := exists_chomp c.toList
      refine isComment_of_append_blanks ?_ hblanks
      rwa [← hc, String.ofList_toList]

theorem IsComment.trim (h : IsComment comment) : IsComment (comment.map trimComment) := by
  cases comment with
  | none => exact h
  | some c =>
      obtain ⟨blanks, hblanks, hc⟩ := exists_trimEnd c.toList
      refine isComment_of_append_blanks ?_ hblanks
      rwa [← hc, String.ofList_toList]

theorem toList_map_chomped (comment : Option String) :
    ((comment.map chomped).map String.toList).getD [] =
      Text.chomp ((comment.map String.toList).getD []) := by
  cases comment with
  | none => rfl
  | some c => exact String.toList_ofList

/-! ## Lines that open blocks -/

theorem chomp_append_comment (hlast : a.getLast? ≠ some '\r') :
    chomp (a ++ (comment.map String.toList).getD []) =
      a ++ ((comment.map chomped).map String.toList).getD [] := by
  rw [toList_map_chomped]
  exact chomp_append fun _ => hlast

/-- A label line keeps the comment as it is read from the end of a line. -/
theorem ofLine_chomp_label {label : String} (hlabel : isIdentifier label.toList = true)
    (hcomment : IsComment comment) :
    BodyLine.ofLine (chomp (label.toList ++ [':'] ++ (comment.map String.toList).getD [])) =
      .label label.toList (comment.map chomped) := by
  have hname : Solid label.toList :=
    .of_unbroken (unbroken_of_isIdentifier hlabel) (ne_nil_of_isIdentifier hlabel)
  have hsolid : Solid (label.toList ++ [':']) := .append hname.head rfl
  have hplain : Plain (label.toList ++ [':']) := (plain_of_isIdentifier hlabel).append (by decide)
  have hsplit := (Function.splits_of_plain hplain hcomment.chomp).splitComment_append
    (by rw [List.getLast?_concat]; rfl)
  rw [chomp_append_comment (by rw [List.getLast?_concat]; decide),
    Function.ofLine_label hsplit hsolid.trim_eq hname, map_map_toList]

/-- Of a line that is a comment, blanks at the end say nothing. -/
theorem ofLine_semicolon (h : trim (';' :: s) = trim (';' :: t)) :
    BodyLine.ofLine (';' :: s) = BodyLine.ofLine (';' :: t) := by
  have hsplit : ∀ s, splitComment (';' :: s) = ([], some (';' :: s)) := fun _ => rfl
  have hempty : (trim []).isEmpty = true := rfl
  unfold BodyLine.ofLine
  rw [hsplit, hsplit]
  dsimp only
  rw [if_pos hempty, if_pos hempty, Option.getD_some, Option.getD_some, h]

/-- A comment line that opens a block keeps the further comment without blanks at its end. -/
theorem ofLine_chomp_labelComment {label : String} (hlabel : isNumeric label.toList = true)
    (hcomment : IsComment comment) :
    BodyLine.ofLine (chomp ("; <label>:".toList ++ label.toList ++
        (comment.map String.toList).getD [])) = .label label.toList (comment.map trimComment) := by
  have hident := isIdentifier_of_isNumeric hlabel
  have hlast : ("; <label>:".toList ++ label.toList).getLast? ≠ some '\r' := by
    rw [List.getLast?_append_of_ne_nil _ (ne_nil_of_isIdentifier hident)]
    exact fun hr => not_mem_of_isIdentifier hident rfl (List.mem_of_getLast? hr)
  have hend : ∀ d ∈ comment.map trimComment, d.toList.getLast?.all (!isBlank ·) = true := by
    intro d hd
    obtain ⟨c, -, rfl⟩ := Option.map_eq_some_iff.1 hd
    rw [trimComment, String.toList_ofList]
    exact getLast?_trimEnd c.toList
  have htrim : trim ("; <label>:".toList ++ label.toList ++
        ((comment.map chomped).map String.toList).getD []) =
      trim ("; <label>:".toList ++ label.toList ++
        ((comment.map trimComment).map String.toList).getD []) := by
    cases comment with
    | none => rfl
    | some c =>
        obtain ⟨blanks, hblanks, hc⟩ := exists_trimEnd (chomp c.toList)
        rw [trimEnd_chomp] at hc
        simp only [chomped, trimComment, Option.map_some, Option.getD_some,
          String.toList_ofList]
        rw [hc, ← List.append_assoc, trim_append_blanks hblanks]
  rw [chomp_append_comment hlast]
  exact (ofLine_semicolon htrim).trans (Function.ofLine_labelComment hlabel hcomment.trim hend).2

/-! ## Lines that are the same in both texts -/

/-- A line that starts with code has that start in its code. -/
theorem Text.code_of_head (hc : isBlank c = false) (hsemicolon : c ≠ ';') (s : List Char) :
    ∃ t, trim (splitComment (c :: s)).1 = c :: t ∧ t <+: s := by
  have hsplit := splitComment_append (c :: s)
  have hblank : ∀ {b r : List Char}, Blanks b → b ++ r = c :: s → b = [] := by
    intro b r hb hbr
    cases b with
    | nil => rfl
    | cons d b =>
        obtain ⟨rfl, -⟩ := List.cons.inj hbr
        exact absurd (hb d List.mem_cons_self) (by simp [hc])
  obtain ⟨x, y, hx, hy, hxy⟩ := exists_trim (splitComment (c :: s)).1
  set code := trim (splitComment (c :: s)).1 with hcode
  rw [hxy] at hsplit
  obtain rfl : x = [] := hblank hx (by simpa using hsplit)
  cases hcodeEq : code with
  | nil =>
      -- no code, so the line starts with its comment
      obtain rfl : y = [] := hblank hy (by simpa [hcodeEq] using hsplit)
      cases hcomment : (splitComment (c :: s)).2 with
      | none => simp [hcodeEq, hcomment] at hsplit
      | some d =>
          obtain ⟨b, r, hb, rfl⟩ := (splits_splitComment (c :: s)).comment d hcomment
          rw [hcomment, hcodeEq] at hsplit
          obtain rfl : b = [] := hblank hb hsplit
          exact absurd (List.cons.inj hsplit).1.symm hsemicolon
  | cons d t =>
      rw [hcodeEq] at hsplit
      obtain ⟨rfl, hs⟩ := List.cons.inj hsplit
      exact ⟨t, rfl, y ++ _, (List.append_assoc ..).symm.trans hs⟩

theorem Text.mem_trim (hc : isBlank c = false) (h : c ∈ s) : c ∈ trim s := by
  obtain ⟨x, y, hx, hy, hs⟩ := exists_trim s
  have hnot : ∀ {b : List Char}, Blanks b → c ∉ b := fun hb hmem => by
    rw [hb c hmem] at hc
    cases hc
  rw [hs, List.mem_append, List.mem_append] at h
  exact (h.resolve_right (hnot hy)).resolve_left (hnot hx)

/-- How the lines of instructions start. -/
def StartsInstruction (c : Char) : Prop := c = '%' ∨ c.isLower = true

instance : DecidablePred StartsInstruction := fun _ => inferInstanceAs (Decidable (_ ∨ _))

theorem StartsInstruction.not_blank (h : StartsInstruction c) : isBlank c = false := by
  rcases h with rfl | hlower
  · decide
  · exact Value.isBlank_of_isLower hlower

theorem StartsInstruction.not_digit (h : StartsInstruction c) : c.isDigit = false := by
  rcases h with rfl | hlower
  · decide
  · rw [Bool.eq_false_iff]
    intro hdigit
    have hlow : 'a'.val ≤ c.val := of_decide_eq_true (Bool.and_eq_true_iff.1 hlower).1
    have hhigh : c.val ≤ '9'.val := of_decide_eq_true (Bool.and_eq_true_iff.1 hdigit).2
    exact absurd (UInt32.le_trans hlow hhigh) (by decide)

/-- A line of an instruction neither closes the body nor opens a block with a numeric label. -/
theorem ofLine_instruction_head (hc : StartsInstruction c) (s : List Char) :
    BodyLine.ofLine (' ' :: ' ' :: c :: s) ≠ .close ∧
      ∀ name comment, BodyLine.ofLine (' ' :: ' ' :: c :: s) = .label name comment →
        isNumeric name = false := by
  have hne : ∀ d, ¬StartsInstruction d → c ≠ d := by
    rintro d hd rfl
    exact hd hc
  obtain ⟨t, hcode, -⟩ := code_of_head hc.not_blank (hne ';' (by decide)) s
  have hindent : trim (splitComment (' ' :: ' ' :: c :: s)).1 = c :: t :=
    (alike_indent (c :: s) (by decide : Blanks [' ', ' '])).code.trans hcode
  unfold BodyLine.ofLine
  dsimp only
  rw [hindent, if_neg (by simp), if_neg fun h => hne '\x7d' (by decide) (List.cons.inj h).1]
  cases hbefore : before? [':'] (c :: t) with
  | none => exact ⟨by simp, fun _ _ h => by cases h⟩
  | some front =>
      refine ⟨by simp, fun name comment h => ?_⟩
      obtain ⟨rfl, -⟩ := BodyLine.label.inj h
      have hsplit := before?_eq_some_iff.1 hbefore
      cases front with
      | nil => exact absurd (List.cons.inj hsplit).1 (hne ':' (by decide))
      | cons d front =>
          obtain ⟨rfl, -⟩ := List.cons.inj hsplit
          have hmem := mem_trim hc.not_blank (List.mem_cons_self : c ∈ c :: front)
          rw [isNumeric, Bool.and_eq_false_imp]
          intro _
          exact List.all_eq_false.2 ⟨c, hmem, by simp [hc.not_digit]⟩

theorem head?_body (i : Instruction) : i.body.toList.head?.any Char.isLower = true := by
  unfold Instruction.body
  cases i.opcode with
  | call =>
      dsimp only [Instruction.callText]
      cases i.tail <;> cases i.operands.getLast? <;> simp [Instruction.wordIf]
  | binary op => cases op <;> simp [BinaryOp.keyword]
  | cast op => cases op <;> simp [CastOp.keyword]
  | _ => simp

theorem startsInstruction_text (i : Instruction) :
    ∃ c t, i.text.toList = c :: t ∧ StartsInstruction c := by
  rw [Instruction.text, Instruction.resultText, String.toList_append, String.toList_append]
  cases i.result with
  | some name => exact ⟨'%', name.toList ++ " = ".toList ++ i.body.toList ++ i.suffixText.toList,
      by simp, .inl rfl⟩
  | none =>
      have hbody := head?_body i
      cases hhead : i.body.toList with
      | nil => simp [hhead] at hbody
      | cons c t =>
          rw [hhead] at hbody
          exact ⟨c, _, rfl, .inr hbody⟩

/-- No function starts on such a line. -/
theorem topLine_ne_define (hc : isBlank c = false) (hsemicolon : c ≠ ';')
    (hdefine : ¬"define ".toList <+: c :: s) (header : List Char) (comment : Option String) :
    TopLine.ofLine (c :: s) ≠ .define header comment := by
  intro h
  obtain ⟨hcode, -⟩ := TopLine.describes_of_ofLine h
  obtain ⟨t, hstart, ht⟩ := code_of_head hc hsemicolon s
  refine hdefine (List.IsPrefix.trans ?_ (List.cons_prefix_cons.2 ⟨rfl, ht⟩))
  rw [← hstart, hcode]
  exact List.prefix_append _ _

/-- A line with the keyword of a definition starts a function, or cannot be read. -/
theorem topLine_define (s : List Char) :
    (∃ header comment, TopLine.ofLine ("define ".toList ++ s) = .define header comment) ∨
      ∃ code, TopLine.ofLine ("define ".toList ++ s) = .unknown code := by
  obtain ⟨t, hcode, ht⟩ := code_of_head (c := 'd') (by decide) (by decide) ("efine ".toList ++ s)
  have hline : TopLine.ofLine ("define ".toList ++ s) =
      TopLine.ofCode ("define ".toList ++ s) ('d' :: t)
        ((splitComment ("define ".toList ++ s)).2.map String.ofList) := by
    rw [← hcode]
    exact TopLine.ofLine_eq_ofCode (hcode.trans_ne (List.cons_ne_nil 'd' t))
  have htarget : ¬TopLine.IsTarget ('d' :: t) := by
    rintro (h | h) <;> cases h
  have hmetadata : ¬TopLine.IsMetadata ('d' :: t) := by
    rintro (h | h) <;> cases h
  rw [hline, TopLine.ofCode, if_neg htarget, if_neg hmetadata, if_neg (by simp)]
  cases after? "define ".toList ('d' :: t) with
  | some header => exact .inl ⟨header, _, rfl⟩
  | none =>
      cases hdeclare : after? "declare ".toList ('d' :: t) with
      | none => exact .inr ⟨_, rfl⟩
      | some header =>
          have hprefix : "declare ".toList <+: "define ".toList ++ s :=
            List.IsPrefix.trans ⟨header, (after?_eq_some_iff.1 hdeclare).symm⟩
              (List.cons_prefix_cons.2 ⟨rfl, ht⟩)
          simp [List.cons_prefix_cons] at hprefix

end SsaIr
