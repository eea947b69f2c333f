import SsaIr.Proofs.Global
import SsaIr.Proofs.Function.Body
import SsaIr.Proofs.Function.Header

/-!
# Lines at module level are read back

Lines about target and metadata are kept as they stand between blanks. The lines of variables and
headers are written from what was read, with the comment of the line behind them.
-/

namespace SsaIr

open Text

variable {line code s a b x y : List Char} {q : Bool} {comment : Option String}

/-! ## Blanks around a line -/

theorem Text.cutComment?_blanks_append (ha : Blanks a) :
    cutComment? q (a ++ s) = (cutComment? q s).map fun (x, y) => (a ++ x, y) := by
  induction a with
  | nil => simp
  | cons c a ih =>
      have hc := ha c List.mem_cons_self
      have hsemicolon : c ≠ ';' := by
        rintro rfl
        cases hc
      have hquote : c ≠ '"' := by
        rintro rfl
        cases hc
      rw [List.cons_append, cutComment?, if_neg (fun h => hsemicolon h.1), if_neg hquote,
        ih fun d hd => ha d (List.mem_cons_of_mem c hd), Option.map_map]
      rfl

theorem Text.cutComment?_append_blanks (hb : Blanks b) :
    cutComment? q (s ++ b) = (cutComment? q s).map fun (x, y) => (x, y ++ b) := by
  cases hs : cutComment? q s with
  | none =>
      obtain ⟨r, hr⟩ := cutComment?_eq_none_iff.1 hs
      refine cutComment?_eq_none_iff.2 ⟨r, ?_⟩
      rw [scan?_append, hr, Option.bind_some, scan?_of_blanks hb]
  | some p =>
      obtain ⟨x, y⟩ := p
      obtain ⟨rfl, hscan, hhead⟩ := cutComment?_eq_some_iff.1 hs
      refine cutComment?_eq_some_iff.2 ⟨List.append_assoc .., hscan, ?_⟩
      rw [List.head?_append, hhead]
      rfl

theorem Text.trim_trimEnd (s : List Char) : trim (trimEnd s) = trim s := by
  obtain ⟨b, hb, hs⟩ := exists_trimEnd s
  conv_rhs => rw [hs, trim_append_blanks hb]

/-- Blanks around a line do not change its code. -/
theorem Text.trim_splitComment_trim (line : List Char) :
    trim (splitComment (trim line)).1 = trim (splitComment line).1 := by
  obtain ⟨a, b, ha, hb, hline⟩ := exists_trim line
  have hcut : cutComment? false line =
      (cutComment? false (trim line)).map fun (x, y) => (a ++ x, y ++ b) := by
    conv_lhs => rw [hline, cutComment?_append_blanks hb, cutComment?_blanks_append ha, Option.map_map]
    rfl
  rw [splitComment, splitComment, hcut]
  cases cutComment? false (trim line) with
  | none => exact trim_trim line
  | some p =>
      change trim (trimEnd p.1) = trim (trimEnd (a ++ p.1))
      rw [trim_trimEnd, trim_trimEnd, trim_blanks_append ha]

namespace Module.TopLine

/-! ## What a line says -/

/-- Code of a line about the target. -/
def IsTarget (code : List Char) : Prop :=
  (after? "target ".toList code).isSome ∨ (after? "source_filename".toList code).isSome

/-- Code of a line about metadata. -/
def IsMetadata (code : List Char) : Prop :=
  code.head? = some '!' ∨ (after? "attributes ".toList code).isSome

instance : DecidablePred IsTarget := fun _ => inferInstanceAs (Decidable (_ ∨ _))

instance : DecidablePred IsMetadata := fun _ => inferInstanceAs (Decidable (_ ∨ _))

/-- What code says with the comment behind it, on the given line. -/
def ofCode (line code : List Char) (comment : Option String) : TopLine :=
  if IsTarget code then .targetInfo (trim line)
  else if IsMetadata code then .metadata (trim line)
  else if code.head? = some '@' then .global code comment
  else
    match after? "define ".toList code, after? "declare ".toList code with
    | some header, _ => .define header comment
    | none, some header => .declare header comment
    | none, none => .unknown code

theorem ofLine_eq_ofCode (h : trim (splitComment line).1 ≠ []) : ofLine line =
    ofCode line (trim (splitComment line).1) ((splitComment line).2.map String.ofList) := by
  exact if_neg fun hempty => h (List.isEmpty_iff.1 hempty)

/-- The line says so: what stands in front of its comment, without blanks around it, decides. -/
def Describes (line : List Char) : TopLine → Prop
  | .blank => True
  | .moduleId text => text = trim ((splitComment line).2.getD []) ∧
      (after? "; ModuleID = ".toList text).isSome
  | .targetInfo text => IsTarget (trim (splitComment line).1) ∧ text = trim line
  | .metadata text => ¬IsTarget (trim (splitComment line).1) ∧
      IsMetadata (trim (splitComment line).1) ∧ text = trim line
  | .global code comment => code = trim (splitComment line).1 ∧
      comment = (splitComment line).2.map String.ofList
  | .define header comment => trim (splitComment line).1 = "define ".toList ++ header ∧
      comment = (splitComment line).2.map String.ofList
  | .declare header comment => trim (splitComment line).1 = "declare ".toList ++ header ∧
      comment = (splitComment line).2.map String.ofList
  | .unknown code => code = trim (splitComment line).1

theorem describes_ofLine (line : List Char) : Describes line (ofLine line) := by
  by_cases hcode : trim (splitComment line).1 = []
  · unfold ofLine
    dsimp only
    rw [if_pos (List.isEmpty_iff.2 hcode)]
    split
    · next hid => exact ⟨rfl, hid⟩
    · trivial
  · rw [ofLine_eq_ofCode hcode, ofCode]
    split
    · next htarget => exact ⟨htarget, rfl⟩
    · next htarget =>
        split
        · next hmetadata => exact ⟨htarget, hmetadata, rfl⟩
        · split
          · exact ⟨rfl, rfl⟩
          · split
            · next hdefine => exact ⟨after?_eq_some_iff.1 hdefine, rfl⟩
            · next hdeclare => exact ⟨after?_eq_some_iff.1 hdeclare, rfl⟩
            · rfl

theorem describes_of_ofLine {l : TopLine} (h : ofLine line = l) : Describes line l :=
  h ▸ describes_ofLine line

/-! ## Lines that are kept -/

theorem ofLine_of_isTarget (h : IsTarget (trim (splitComment line).1)) :
    ofLine line = .targetInfo (trim line) := by
  refine (ofLine_eq_ofCode fun hnil => ?_).trans (if_pos h)
  rw [hnil] at h
  rcases h with h | h <;> cases h

theorem ofLine_of_isMetadata (htarget : ¬IsTarget (trim (splitComment line).1))
    (h : IsMetadata (trim (splitComment line).1)) : ofLine line = .metadata (trim line) := by
  refine (ofLine_eq_ofCode fun hnil => ?_).trans ((if_neg htarget).trans (if_pos h))
  rw [hnil] at h
  rcases h with h | h <;> cases h

/-- Blanks around it do not change what a line about the target says. -/
theorem ofLine_targetInfo {text : List Char} (h : ofLine line = .targetInfo text) :
    text = trim line ∧ ofLine text = .targetInfo text := by
  obtain ⟨htarget, rfl⟩ := describes_of_ofLine h
  have hagain : ofLine (trim line) = .targetInfo (trim (trim line)) :=
    ofLine_of_isTarget (by rwa [trim_splitComment_trim])
  rw [trim_trim] at hagain
  exact ⟨rfl, hagain⟩

theorem ofLine_metadata {text : List Char} (h : ofLine line = .metadata text) :
    text = trim line ∧ ofLine text = .metadata text := by
  obtain ⟨htarget, hmetadata, rfl⟩ := describes_of_ofLine h
  have hagain : ofLine (trim line) = .metadata (trim (trim line)) :=
    ofLine_of_isMetadata (by rwa [trim_splitComment_trim]) (by rwa [trim_splitComment_trim])
  rw [trim_trim] at hagain
  exact ⟨rfl, hagain⟩

/-- The line that names the module is kept without blanks around it. -/
theorem ofLine_moduleId {text : List Char} (h : ofLine line = .moduleId text) :
    text ⊆ line ∧ Solid text ∧ ofLine text = .moduleId text := by
  obtain ⟨htext, hid⟩ := describes_of_ofLine h
  obtain ⟨rest, hrest⟩ := Option.isSome_iff_exists.1 hid
  have hsolid : Solid text := by
    rw [htext] at hrest ⊢
    refine solid_trim fun hnil => ?_
    rw [hnil] at hrest
    cases hrest
  refine ⟨?_, hsolid, ?_⟩
  · intro c hc
    rw [← splitComment_append line]
    exact List.mem_append_right _ (trim_subset _ (htext ▸ hc))
  · have hsplit : splitComment text = ([], some text) := by
      rw [after?_eq_some_iff.1 hrest]
      rfl
    have hempty : (trim []).isEmpty = true := rfl
    rw [ofLine, hsplit]
    dsimp only
    rw [if_pos hempty, Option.getD_some, hsolid.trim_eq, if_pos hid]

/-! ## Lines that are written again -/

theorem ofLine_append_comment (h : Writable code (comment.map String.toList)) :
    ofLine (code ++ (comment.map String.toList).getD []) =
      ofCode (code ++ (comment.map String.toList).getD []) code comment := by
  have hsplit := h.splitComment_at_start
  have hne : trim (splitComment (code ++ (comment.map String.toList).getD [])).1 ≠ [] := by
    rw [hsplit, h.solid.trim_eq]
    exact h.solid.ne_nil
  rw [ofLine_eq_ofCode hne, hsplit, h.solid.trim_eq, map_map_toList]

theorem ofLine_global (h : Writable code (comment.map String.toList))
    (hhead : code.head? = some '@') :
    ofLine (code ++ (comment.map String.toList).getD []) = .global code comment := by
  obtain ⟨s, rfl⟩ := List.head?_eq_some_iff.1 hhead
  exact ofLine_append_comment h

theorem ofLine_define (h : Writable ("define ".toList ++ s) (comment.map String.toList)) :
    ofLine ("define ".toList ++ s ++ (comment.map String.toList).getD []) = .define s comment :=
  ofLine_append_comment h

theorem ofLine_declare (h : Writable ("declare ".toList ++ s) (comment.map String.toList)) :
    ofLine ("declare ".toList ++ s ++ (comment.map String.toList).getD []) =
      .declare s comment :=
  ofLine_append_comment h

end Module.TopLine

end SsaIr
