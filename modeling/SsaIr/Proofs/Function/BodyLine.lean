import SsaIr.Proofs.Instruction.Copy
import SsaIr.Module.Parser
import SsaIr.Module.Printer

/-!
# Lines of a body are read back

The line of an instruction says what the line it was read from says, and so does the line of a
label, in either style. Copies made for a phi have no line of their own, but their parts come
from the line of the phi.
-/

namespace SsaIr

open Text

variable {scope : List String} {i : Instruction} {line code s : List Char}
  {comment : Option String}

/-! ## Comments -/

/-- A comment as lines have them: blanks and what starts at a semicolon. -/
def IsComment (comment : Option String) : Prop :=
  ∀ c ∈ comment, (∃ b r, Blanks b ∧ c.toList = b ++ ';' :: r) ∧ '\n' ∉ c.toList

theorem isComment_of_splitComment {l : List Char} (h : '\n' ∉ l) :
    IsComment ((splitComment l).2.map String.ofList) := by
  intro c hc
  obtain ⟨s, hs, rfl⟩ := Option.map_eq_some_iff.1 hc
  rw [← splitComment_append l, hs, Option.getD_some, List.mem_append, not_or] at h
  rw [String.toList_ofList]
  exact ⟨(splits_splitComment l).comment s hs, h.2⟩

theorem isRegularComment_iff :
    isRegularComment comment = true ↔ ∀ c ∈ comment, c.toList.getLast? ≠ some '\r' := by
  cases comment with
  | none => simp [isRegularComment]
  | some c => simp [isRegularComment, endsWith]

theorem toList_getD_comment : (comment.getD "").toList = (comment.map String.toList).getD [] := by
  cases comment <;> rfl

theorem map_map_ofList (c : Option (List Char)) : (c.map String.ofList).map String.toList = c := by
  cases c with
  | none => rfl
  | some c => exact congrArg some String.toList_ofList

theorem map_map_toList (c : Option String) : (c.map String.toList).map String.ofList = c := by
  cases c with
  | none => rfl
  | some c => exact congrArg some String.ofList_toList

/-- What takes the place of the code of a line can be written with the comment of that line. -/
theorem writable_of_line (hcomment : comment = (splitComment line).2.map String.ofList)
    (hregular : isRegularComment comment = true) (hline : '\n' ∉ line) (hs : Solid s)
    (hkeeps : Keeps (trim (splitComment line).1) s) :
    Writable s (comment.map String.toList) := by
  have hsplit : comment.map String.toList = (splitComment line).2 := by
    rw [hcomment, map_map_ofList]
  rw [hsplit]
  refine hkeeps.writable hs hline fun c hc => ?_
  rw [← hsplit] at hc
  obtain ⟨d, hd, rfl⟩ := Option.map_eq_some_iff.1 hc
  exact isRegularComment_iff.1 hregular d hd

namespace Function

/-! ## What a line of a body says -/

theorem getLast?_of_before? {name : List Char} (h : before? [':'] code = some name) :
    code.getLast? = some ':' := by
  rw [before?_eq_some_iff.1 h]
  simp

theorem before?_eq_none (h : code.getLast? ≠ some ':') : before? [':'] code = none := by
  cases hb : before? [':'] code with
  | none => rfl
  | some name => exact absurd (getLast?_of_before? hb) h

/-- Code that is neither the end of the body nor a label is an instruction. -/
theorem ofLine_instruction {c : Option (List Char)} (hsplit : splitComment line = (s, c))
    (hcode : trim s = code) (hne : code ≠ []) (hclose : code ≠ ['\x7d'])
    (hcolon : code.getLast? ≠ some ':') :
    BodyLine.ofLine line = .instruction code (c.map String.ofList) := by
  rw [BodyLine.ofLine, hsplit]
  dsimp only
  rw [hcode, if_neg (by simpa using hne), if_neg hclose, before?_eq_none hcolon]

theorem ofLine_eq_instruction (h : BodyLine.ofLine line = .instruction code comment) :
    code = trim (splitComment line).1 ∧ comment = (splitComment line).2.map String.ofList ∧
      code.getLast? ≠ some ':' := by
  unfold BodyLine.ofLine at h
  dsimp only at h
  split at h
  · split at h <;> cases h
  · split at h
    · cases h
    · split at h
      · cases h
      · next hcolon =>
          obtain ⟨rfl, rfl⟩ := BodyLine.instruction.inj h
          refine ⟨rfl, rfl, fun hlast => ?_⟩
          obtain ⟨t, ht⟩ := List.getLast?_eq_some_iff.1 hlast
          rw [before?_eq_some_iff.2 ht] at hcolon
          cases hcolon

/-- A label is named in a comment or in front of a colon. -/
theorem ofLine_eq_label {name : List Char} (h : BodyLine.ofLine line = .label name comment) :
    (∃ further, labelComment? (trim ((splitComment line).2.getD [])) = some (name, further) ∧
      comment = further.map String.ofList) ∨
      comment = (splitComment line).2.map String.ofList := by
  unfold BodyLine.ofLine at h
  dsimp only at h
  split at h
  · split at h
    · next number further hlabel =>
        obtain ⟨rfl, rfl⟩ := BodyLine.label.inj h
        exact .inl ⟨further, hlabel, rfl⟩
    · cases h
  · split at h
    · cases h
    · split at h
      · obtain ⟨-, rfl⟩ := BodyLine.label.inj h
        exact .inr rfl
      · cases h

end Function

/-! ## Lines of instructions -/

namespace Instruction

open SsaIr.Function (BodyLine ofLine_instruction ofLine_eq_instruction)

/-- An instruction that is read back from the line it is written on. -/
structure RereadLine (scope : List String) (i : Instruction) : Prop where
  isLine : IsLine i.line.toList
  ofLine : BodyLine.ofLine i.line.toList = .instruction i.text.toList i.comment
  parse : Instruction.parse scope i.text.toList = .ok { i with comment := none }

theorem toList_line (i : Instruction) :
    i.line.toList = [' ', ' '] ++ i.text.toList ++ (i.comment.map String.toList).getD [] := by
  rw [Instruction.line, String.toList_append, String.toList_append, toList_getD_comment]
  rfl

theorem rereadLine_of_writable (h : Writable i.text.toList (i.comment.map String.toList))
    (hcolon : ¬EndsInColon i.text.toList)
    (hparse : Instruction.parse scope i.text.toList = .ok { i with comment := none }) :
    RereadLine scope i := by
  have hplain : Plain [' ', ' '] := by decide
  have htrim : trim ([' ', ' '] ++ i.text.toList) = i.text.toList := by
    rw [trim_blanks_append (by decide), h.solid.trim_eq]
  have hclose := Instruction.ne_close_of_parse hparse
  rw [h.solid.endsInColon_iff] at hcolon
  refine ⟨?_, ?_, hparse⟩
  · rw [toList_line]
    exact h.isLine hplain
  · rw [toList_line, ofLine_instruction (h.splitComment_append hplain) htrim h.solid.ne_nil hclose
      hcolon, map_map_toList]

/-- An instruction that was read from a line of a body. -/
structure FromLine (scope : List String) (i : Instruction) (line : List Char) : Prop where
  newline : '\n' ∉ line
  ofLine : ∃ code, BodyLine.ofLine line = .instruction code i.comment ∧
    Instruction.parse scope code = .ok { i with comment := none }

theorem isRegular_without_comment (h : i.isRegular = true) :
    ({ i with comment := none } : Instruction).isRegular = true := by
  rw [Instruction.isRegular, Bool.and_eq_true] at h ⊢
  exact ⟨h.1, rfl⟩

/-- What replaces code without a colon at its end has none either. -/
theorem not_endsInColon {t : List Char} (h : Rewrites (trim t) s)
    (hcolon : (trim t).getLast? ≠ some ':') : ¬EndsInColon s := by
  intro hend
  have hend' := h.colon hend
  rcases trim_eq_nil_or_solid t with hnil | hsolid
  · rw [hnil] at hend'
    cases hend'
  · exact hcolon (hsolid.endsInColon_iff.1 hend')

theorem FromLine.rereadLine (h : FromLine scope i line) (hi : i.isRegular = true) :
    RereadLine scope i := by
  obtain ⟨code, hline, hparse⟩ := h.ofLine
  obtain ⟨rfl, hcomment, hcolon⟩ := ofLine_eq_instruction hline
  obtain ⟨hrewrites, hagain⟩ := Instruction.parse_reread hparse (isRegular_without_comment hi)
  have hrewrites : Rewrites (trim (splitComment line).1) i.text.toList := hrewrites
  rw [Instruction.isRegular, Bool.and_eq_true] at hi
  exact rereadLine_of_writable
    (writable_of_line hcomment hi.2 h.newline hrewrites.solid hrewrites.keeps)
    (not_endsInColon hrewrites hcolon) hagain

/-- The instructions of a function that was read, with its phis eliminated or not. -/
inductive Written (scope : List String) : Instruction → Prop
  | line {i : Instruction} {line : List Char} (h : FromLine scope i line) : Written scope i
  | copy {phi : Instruction} {line : List Char} {name label : String} {v : Value}
      (h : FromLine scope phi line) (hphi : phi.isPhi = true) (hname : phi.result = some name)
      (hmem : (v, label) ∈ phi.incoming) : Written scope (.copy name phi.type v)

theorem Written.rereadLine (h : Written scope i) (hi : i.isRegular = true) :
    RereadLine scope i := by
  cases h with
  | line h => exact h.rereadLine hi
  | @copy phi line name label v h hphi hname hmem =>
      obtain ⟨code, hline, hparse⟩ := h.ofLine
      obtain ⟨rfl, -, hcolon⟩ := ofLine_eq_instruction hline
      simp only [Instruction.isRegular, Instruction.copy, Instruction.inputs, List.map_nil,
        List.append_nil, List.all_cons, List.all_nil, Instruction.hasRegularForm,
        Bool.and_eq_true] at hi
      obtain ⟨⟨⟨-, hv, -⟩, hplain, -⟩, -⟩ := hi
      obtain ⟨hrewrites, hagain⟩ := Instruction.copy_reread hparse (of_decide_eq_true hphi) hname
        hmem hv hplain
      exact rereadLine_of_writable (hrewrites.writable_alone h.newline)
        (not_endsInColon hrewrites hcolon) hagain

end Instruction

/-! ## Lines of labels -/

namespace Function

theorem ofLine_label {c : Option (List Char)} {name : List Char} (hsplit : splitComment line = (s, c))
    (hcode : trim s = name ++ [':']) (hname : Solid name) :
    BodyLine.ofLine line = .label name (c.map String.ofList) := by
  have hclose : name ++ [':'] ≠ ['\x7d'] := by
    intro heq
    have hlast := congrArg List.getLast? heq
    rw [List.getLast?_concat] at hlast
    cases hlast
  rw [BodyLine.ofLine, hsplit]
  dsimp only
  rw [hcode, if_neg (by simp), if_neg hclose, before?_eq_some_iff.2 rfl]
  dsimp only
  rw [hname.trim_eq]

/-- What a comment names besides the number is a comment again. -/
theorem isComment_of_labelComment? {number : List Char} {further : Option (List Char)}
    (hs : '\n' ∉ s) (h : labelComment? s = some (number, further)) :
    IsComment (further.map String.ofList) := by
  obtain ⟨rest, hrest, h⟩ := Option.bind_eq_some_iff.1 h
  obtain ⟨rest', hrest', h⟩ := Option.bind_eq_some_iff.1 h
  dsimp only at h
  split at h
  · cases h
  · split at h
    · obtain ⟨-, rfl⟩ := Prod.mk.inj (Option.some.inj h)
      intro c hc
      cases hc
    · split at h
      · next hsemicolon =>
          obtain ⟨-, rfl⟩ := Prod.mk.inj (Option.some.inj h)
          intro c hc
          obtain rfl := Option.some.inj hc
          set behind := rest'.dropWhile Char.isDigit with hbehind
          obtain ⟨b, hb, hsplit⟩ := exists_trimStart behind
          obtain ⟨r, hr⟩ := List.head?_eq_some_iff.1 hsemicolon.1
          rw [String.toList_ofList]
          refine ⟨⟨b, r, hb, hsplit.trans (by rw [hr])⟩, fun hmem => hs ?_⟩
          rw [after?_eq_some_iff.1 hrest]
          apply List.mem_append_right
          apply trimStart_subset
          rw [after?_eq_some_iff.1 hrest']
          exact List.mem_append_right _ ((List.dropWhile_suffix _).subset hmem)
      · cases h

/-- A comment that names a number is read as that number, and the further comment is kept. -/
theorem labelComment?_append {number : List Char} (hnumber : isNumeric number = true)
    (hcomment : IsComment comment) :
    labelComment? ("; <label>:".toList ++ number ++ (comment.map String.toList).getD []) =
      some (number, comment.map String.toList) := by
  rw [isNumeric, Bool.and_eq_true, Bool.not_eq_true', List.all_eq_true] at hnumber
  obtain ⟨hne, hdigits⟩ := hnumber
  have hhead : ∀ c, ((comment.map String.toList).getD []).head? = some c → c.isDigit = false := by
    intro c hc
    cases comment with
    | none => cases hc
    | some d =>
        obtain ⟨⟨b, r, hb, hd⟩, -⟩ := hcomment d rfl
        rw [Option.map_some, Option.getD_some, hd] at hc
        rw [Bool.eq_false_iff]
        intro hdigit
        cases b with
        | nil =>
            obtain rfl := Option.some.inj hc
            cases hdigit
        | cons e b =>
            obtain rfl := Option.some.inj hc
            have hblank := hb e List.mem_cons_self
            rw [isBlank_of_isAlphanum (isAlphanum_of_isDigit hdigit)] at hblank
            cases hblank
  obtain ⟨htake, hdrop⟩ := TypeToken.takeWhile_append_of_head hdigits hhead
  have hstart : after? [';'] ("; <label>:".toList ++ number ++ (comment.map String.toList).getD []) =
      some (" <label>:".toList ++ number ++ (comment.map String.toList).getD []) := rfl
  have hlabel : after? "<label>:".toList
      (trimStart (" <label>:".toList ++ number ++ (comment.map String.toList).getD [])) =
        some (number ++ (comment.map String.toList).getD []) := rfl
  unfold labelComment?
  rw [hstart]
  simp only [Option.bind_eq_bind, Option.bind_some, hlabel, htake, hdrop, hne, Bool.false_eq_true,
    if_false]
  cases comment with
  | none => rfl
  | some d =>
      obtain ⟨⟨b, r, hb, hd⟩, hnewline⟩ := hcomment d rfl
      have htrim : trimStart d.toList = ';' :: r := by
        rw [hd, trimStart_append_of_blanks hb]
        rfl
      have hnewline' : '\n' ∉ ';' :: r := fun hmem => hnewline (hd ▸ List.mem_append_right b hmem)
      rw [Option.map_some, Option.getD_some, htrim, if_neg (by simp), if_pos ⟨rfl, hnewline'⟩]

theorem splits_of_plain {code : List Char} (hplain : Plain code) (hcomment : IsComment comment) :
    Splits code (comment.map String.toList) := by
  refine ⟨⟨false, scan?_of_plain hplain, fun _ => rfl⟩, fun c hc => ?_⟩
  obtain ⟨d, hd, rfl⟩ := Option.map_eq_some_iff.1 hc
  exact (hcomment d hd).1

/-- A comment behind plain code can be written on its line. -/
theorem writable_of_plain {code : List Char} (hsolid : Solid code) (hplain : Plain code)
    (hcomment : IsComment comment) (hregular : isRegularComment comment = true) :
    Writable code (comment.map String.toList) where
  solid := hsolid
  splits := splits_of_plain hplain hcomment
  newline := by
    rw [List.mem_append, not_or]
    refine ⟨fun hmem => (hplain _ hmem).2.2 rfl, ?_⟩
    cases comment with
    | none => exact List.not_mem_nil
    | some d => exact (hcomment d rfl).2
  last := by
    intro c hc
    obtain ⟨d, hd, rfl⟩ := Option.map_eq_some_iff.1 hc
    exact isRegularComment_iff.1 hregular d hd

/-- A comment that opens a block is read as its label. -/
theorem ofLine_labelComment {label : String} (hlabel : isNumeric label.toList = true)
    (hcomment : IsComment comment)
    (hend : ∀ d ∈ comment, d.toList.getLast?.all (!isBlank ·) = true) :
    IsLine ("; <label>:".toList ++ label.toList ++ (comment.map String.toList).getD []) ∧
      BodyLine.ofLine ("; <label>:".toList ++ label.toList ++
        (comment.map String.toList).getD []) = .label label.toList comment := by
  have hident := isIdentifier_of_isNumeric hlabel
  have hlast : Solid label.toList :=
    .of_unbroken (unbroken_of_isIdentifier hident) (ne_nil_of_isIdentifier hident)
  set l := "; <label>:".toList ++ label.toList ++ (comment.map String.toList).getD [] with hl
  have hsolid : Solid l := by
    cases comment with
    | none =>
        rw [hl, Option.map_none, Option.getD_none, List.append_nil]
        exact .append (by decide) hlast.last
    | some d =>
        obtain ⟨⟨b, r, -, hd⟩, -⟩ := hcomment d rfl
        have hne : d.toList ≠ [] := by simp [hd]
        have hdlast := hend d rfl
        rw [List.getLast?_eq_some_getLast hne] at hdlast
        refine .append rfl ?_
        rw [Option.map_some, Option.getD_some, List.getLast?_eq_some_getLast hne]
        exact hdlast
  have hnewline : '\n' ∉ l := by
    rw [hl, List.mem_append, List.mem_append, not_or, not_or]
    refine ⟨⟨by decide, not_mem_of_isIdentifier hident rfl⟩, ?_⟩
    cases comment with
    | none => exact List.not_mem_nil
    | some d => exact (hcomment d rfl).2
  have hsplit : splitComment l = ([], some l) := rfl
  refine ⟨hsolid.isLine hnewline, ?_⟩
  rw [BodyLine.ofLine, hsplit]
  dsimp only
  have hempty : (trim []).isEmpty = true := rfl
  rw [if_pos hempty, Option.getD_some, hsolid.trim_eq, hl, labelComment?_append hlabel hcomment]
  dsimp only
  rw [map_map_toList]

theorem toList_labelLine (style : LabelStyle) (b : Block) : (b.labelLine style).toList =
    (if b.hasNumericLabel ∧ style = .comment then "; <label>:".toList ++ b.label.toList
      else b.label.toList ++ [':']) ++ (b.comment.map String.toList).getD [] := by
  rw [Block.labelLine, String.toList_append, toList_getD_comment]
  split <;> rw [String.toList_append]
  rfl

/-- A label line is read back, in either style. -/
theorem labelLine_reread {b : Block} (style : LabelStyle)
    (hlabel : isIdentifier b.label.toList = true) (hcomment : IsComment b.comment)
    (hb : b.isRegular = true) :
    IsLine (b.labelLine style).toList ∧
      BodyLine.ofLine (b.labelLine style).toList = .label b.label.toList b.comment := by
  simp only [Block.isRegular, Bool.and_eq_true, Bool.or_eq_true, Bool.not_eq_true'] at hb
  obtain ⟨⟨hregular, hend⟩, -⟩ := hb
  rw [toList_labelLine]
  split
  · next hstyle =>
      have hend := hend.resolve_left (by simp [hstyle.1])
      refine ofLine_labelComment hstyle.1 hcomment fun d hd => ?_
      rwa [Option.mem_def.1 hd, Option.all_some] at hend
  · have hname : Solid b.label.toList :=
      .of_unbroken (unbroken_of_isIdentifier hlabel) (ne_nil_of_isIdentifier hlabel)
    have hsolid : Solid (b.label.toList ++ [':']) := .append hname.head rfl
    have hplain : Plain (b.label.toList ++ [':']) :=
      (plain_of_isIdentifier hlabel).append (by decide)
    have hwritable := writable_of_plain hsolid hplain hcomment hregular
    refine ⟨hwritable.isLine_at_start, ?_⟩
    rw [ofLine_label hwritable.splitComment_at_start hsolid.trim_eq hname, map_map_toList]

end Function

end SsaIr
