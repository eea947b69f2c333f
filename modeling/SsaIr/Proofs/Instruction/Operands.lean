import SsaIr.Proofs.Instruction.Arguments

/-!
# Operands are read back

The operands of most opcodes share one type in front of them, those of memory operations have
types of their own, and a phi has pairs in brackets. Each kind is read again from the list it is
written as.
-/

namespace SsaIr.Instruction

open Text

variable {scope : List String} {i i' : Instruction} {rest arg out : List Char} {type : String}
  {v : Value} {args : List (List Char)}

/-! ## Operands of one type -/

/-- An operand of known type that was read from an argument, written as another text. -/
structure RereadShared (scope : List String) (type : String) (arg out : List Char) (v : Value) :
    Prop extends Respelled arg out where
  parse : Value.parse scope out type = .ok v
  paren : out.head? ≠ some '('
  align : after? "align ".toList out = none
  metadata : out.head? ≠ some '!'
  colon : ¬EndsInColon out

theorem RereadShared.inert (h : RereadShared scope type arg out v) : Inert out :=
  ⟨h.paren, h.align, h.metadata, h.colon⟩

theorem rereadShared_text (h : Value.parse scope arg type = .ok v) (hv : v.isRegular = true)
    (hmetadata : v.isMetadata = false) (hlabel : v.isLabel = true → type = TypeToken.label) :
    RereadShared scope type arg v.text.toList v := by
  have hreread := Value.reread_of_parse h hv
  refine ⟨hreread.toRespelled, hreread.parse type (fun _ => rfl) hlabel, hreread.paren,
    hreread.align, ?_, ?_⟩
  · intro hhead
    rw [hreread.metadata.1 hhead] at hmetadata
    cases hmetadata
  · rw [hreread.solid.endsInColon_iff]
    exact hreread.colon hmetadata

theorem isIdentifier_of_parse_label {n : String}
    (h : Value.parse scope arg type = .ok (.label n)) : isIdentifier n.toList = true := by
  rw [Value.parse_eq] at h
  split at h
  · cases h
  · next v hform =>
      obtain rfl := Except.ok.inj h
      have hspells := (Value.spells_of_form hform).2
      generalize hf : Value.Form.value (.label n) = f at hspells
      generalize trim arg = t at hspells
      cases hspells with
      | label hname =>
          obtain rfl := Value.label.inj (Value.Form.value.inj hf)
          exact (sigilName?_eq_some hname).2
      | localName hident =>
          have hlocal := Value.Form.value.inj hf
          unfold Value.ofLocalName at hlocal
          split at hlocal
          · obtain rfl := Value.label.inj hlocal
            exact hident
          · split at hlocal <;> cases hlocal
      | _ => cases hf
  · obtain ⟨vs, -, hv⟩ := map_eq_ok_iff.1 h
    cases hv

/-- A target of a branch is written behind the word `label`, whatever the type. -/
theorem rereadShared_target (h : Value.parse scope arg type = .ok v) (hv : v.isLabel = true) :
    RereadShared scope type arg v.typedText.toList v := by
  cases v with
  | label n =>
      have hident := isIdentifier_of_parse_label h
      have hreread := Value.reread_of_parse h rfl
      have htext : (Value.label n).typedText.toList = "label %".toList ++ n.toList := by
        rw [Value.typedText_label, String.toList_append]
      have hspace : (Value.label n).typedText.toList =
          TypeToken.label.toList ++ ' ' :: (Value.label n).text.toList := Value.typedText_eq rfl
      have hsolid : Solid (Value.label n).typedText.toList := by
        rw [hspace]
        exact TypeToken.isToken_label.solid.append_space hreread.solid
      have hlead : Piece (TypeToken.label.toList ++ [' ']) := by decide
      have hplain : Keeps [] (TypeToken.label.toList ++ [' ']) :=
        .of_plain List.not_mem_nil (by decide)
      refine ⟨⟨hsolid, hreread.source, ?_, ?_⟩, ?_, ?_, ?_, ?_, ?_⟩
      · rw [hspace, ← List.singleton_append, ← List.append_assoc]
        exact hlead.append hreread.piece
      · rw [hspace, ← List.singleton_append, ← List.append_assoc]
        exact hplain.append hreread.keeps
      · rw [htext]
        exact Value.parse_of_form (Value.form_label hident)
      · rw [hspace, List.head?_append_of_ne_nil _ TypeToken.isToken_label.solid.ne_nil]
        decide
      · rw [hspace]
        rfl
      · rw [hspace, List.head?_append_of_ne_nil _ TypeToken.isToken_label.solid.ne_nil]
        decide
      · rw [hsolid.endsInColon_iff, hspace, List.getLast?_append, List.getLast?_cons,
          List.getLast?_eq_some_getLast hreread.solid.ne_nil]
        have hcolon := hreread.colon rfl
        rwa [List.getLast?_eq_some_getLast hreread.solid.ne_nil] at hcolon
  | _ => cases hv

theorem parseShared_eq_ok_iff :
    parseShared scope i rest = .ok i' ↔
      ∃ t args parts i₁ args', TypeToken.take rest = .ok (t, args) ∧
        splitOperands args = .ok parts ∧
        takeSuffixes { i with type := some (String.ofList t) } parts = .ok (i₁, args') ∧
        List.Forall₂ (fun a v => Value.parse scope a (String.ofList t) = .ok v) args' i'.operands ∧
        i' = { i₁ with operands := i'.operands } := by
  unfold parseShared
  constructor
  · intro h
    obtain ⟨⟨t, args⟩, htake, h⟩ := bind_eq_ok_iff.1 h
    obtain ⟨parts, hparts, h⟩ := bind_eq_ok_iff.1 h
    obtain ⟨⟨i₁, args'⟩, hsuffixes, h⟩ := bind_eq_ok_iff.1 h
    obtain ⟨operands, hoperands, h⟩ := bind_eq_ok_iff.1 h
    obtain rfl := Except.ok.inj h
    exact ⟨t, args, parts, i₁, args', htake, hparts, hsuffixes, mapM_eq_ok_iff.1 hoperands, rfl⟩
  · rintro ⟨t, args, parts, i₁, args', htake, hparts, hsuffixes, hoperands, hi⟩
    apply bind_eq_ok_iff.2
    refine ⟨(t, args), htake, bind_eq_ok_iff.2 ⟨parts, hparts, bind_eq_ok_iff.2 ?_⟩⟩
    refine ⟨(i₁, args'), hsuffixes, bind_eq_ok_iff.2 ⟨i'.operands, ?_, ?_⟩⟩
    · exact mapM_eq_ok_iff.2 hoperands
    · exact congrArg Except.ok hi.symm

theorem ne_nil_of_parse (h : Value.parse scope arg type = .ok v) : arg ≠ [] := by
  rintro rfl
  rw [Value.parse_eq] at h
  cases h

/-- Operands behind one type are read again from any spellings that keep them. -/
theorem parseShared_reread {write : Value → List Char} (h : parseShared scope i rest = .ok i')
    (hne : i'.operands ≠ [])
    (hwrite : ∀ t arg v, i'.type = some t → v ∈ i'.operands →
      Value.parse scope arg t = .ok v → RereadShared scope t arg (write v) v) :
    ∃ t, i'.type = some t ∧
      Rewrites rest (t.toList ++
        ' ' :: [',', ' '].intercalate (i'.operands.map write ++ i'.suffixes)) ∧
      parseShared scope i (t.toList ++
        ' ' :: [',', ' '].intercalate (i'.operands.map write ++ i'.suffixes)) = .ok i' := by
  obtain ⟨t, args, parts, i₁, args', htake, hparts, hsuffixes, hoperands, hi⟩ :=
    parseShared_eq_ok_iff.1 h
  have hs := splitOperands_eq_ok_iff.1 hparts
  have htakes := takesSuffixes_of_eq_ok hsuffixes
  have htype : i'.type = some (String.ofList t) := by rw [hi, htakes.eq]
  have hsuf : i'.suffixes = i₁.suffixes := by rw [hi]; rfl
  have hreread : List.Forall₂ (fun a v => RereadShared scope (String.ofList t) a (write v) v)
      args' i'.operands := forall₂_imp_of_mem hoperands fun a v _ hv hparse =>
        hwrite (String.ofList t) a v htype hv hparse
  have hrespelled : List.Forall₂ Respelled args' (i'.operands.map write) :=
    List.forall₂_map_right_iff.2 (hreread.imp fun _ _ hr => hr.toRespelled)
  have hargs : ∀ a ∈ args', a ≠ [] :=
    forall_mem_of_forall₂ (hoperands.flip.imp fun _ _ hparse => ne_nil_of_parse hparse)
  have hinert : ∀ p ∈ i'.operands.map write, Inert p :=
    List.forall_mem_map.2 (forall_mem_of_forall₂ (hreread.imp fun _ _ hr => hr.inert))
  have hbehind := htakes.reread_inert htake hs hargs hrespelled hinert (by simpa using hne)
  refine ⟨String.ofList t, htype, ?_⟩
  rw [String.toList_ofList, hsuf]
  refine ⟨hbehind.rewrites, parseShared_eq_ok_iff.2 ⟨t, _, _, i₁, _, hbehind.type, hbehind.split,
    hbehind.take, ?_, hi⟩⟩
  rw [List.forall₂_map_left_iff, List.forall₂_same]
  exact forall_mem_of_forall₂ (hreread.imp fun _ _ hr => hr.parse)

/-! ## Operands with types of their own -/

theorem parseTyped_eq_ok_iff :
    parseTyped scope i rest = .ok i' ↔
      ∃ parts i₁ args', splitOperands rest = .ok parts ∧
        takeSuffixes i parts = .ok (i₁, args') ∧
        List.Forall₂ (fun a v => Value.parseTyped scope a = .ok v) args' i'.operands ∧
        i' = { i₁ with operands := i'.operands } := by
  unfold parseTyped
  constructor
  · intro h
    obtain ⟨parts, hparts, h⟩ := bind_eq_ok_iff.1 h
    obtain ⟨⟨i₁, args'⟩, hsuffixes, h⟩ := bind_eq_ok_iff.1 h
    obtain ⟨operands, hoperands, h⟩ := bind_eq_ok_iff.1 h
    obtain rfl := Except.ok.inj h
    exact ⟨parts, i₁, args', hparts, hsuffixes, mapM_eq_ok_iff.1 hoperands, rfl⟩
  · rintro ⟨parts, i₁, args', hparts, hsuffixes, hoperands, hi⟩
    apply bind_eq_ok_iff.2
    refine ⟨parts, hparts, bind_eq_ok_iff.2 ⟨(i₁, args'), hsuffixes, ?_⟩⟩
    refine bind_eq_ok_iff.2 ⟨i'.operands, mapM_eq_ok_iff.2 hoperands, ?_⟩
    exact congrArg Except.ok hi.symm

theorem parseTyped_space (h : parseTyped scope i rest = .ok i') :
    parseTyped scope i (' ' :: rest) = .ok i' := by
  obtain ⟨parts, i₁, args', hparts, htypes⟩ := parseTyped_eq_ok_iff.1 h
  exact parseTyped_eq_ok_iff.2 ⟨parts, i₁, args', splitOperands_space hparts, htypes⟩

/-- The typed operands of an instruction with the suffixes behind them. -/
def typedText (i : Instruction) : List Char :=
  [',', ' '].intercalate ((i.operands.map fun v => v.typedText.toList) ++ i.suffixes)

theorem after?_append_comma {lead p r : List Char} (hlead : ',' ∉ lead)
    (hr : r.head?.all (· == ',') = true) (h : (after? lead (p ++ r)).isSome = true) :
    (after? lead p).isSome = true := by
  obtain ⟨x, hx⟩ := Option.isSome_iff_exists.1 h
  rcases List.append_eq_append_iff.1 (after?_eq_some_iff.1 hx) with ⟨y, rfl, hy⟩ | ⟨y, rfl, -⟩
  · cases y with
    | nil => exact Option.isSome_iff_exists.2 ⟨[], after?_eq_some_iff.2 (by simp)⟩
    | cons c y =>
        rw [hy] at hr
        obtain rfl : c = ',' := by simpa using hr
        exact absurd (by simp) hlead
  · exact Option.isSome_iff_exists.2 ⟨y, after?_eq_some_iff.2 rfl⟩

/-- Typed operands that were read from a text, written again. -/
structure RereadTypedList (scope : List String) (i i' : Instruction) (rest : List Char) :
    Prop where
  solid : ¬(i'.operands = [] ∧ i'.suffixes = []) → Solid i'.typedText
  keeps : Keeps rest i'.typedText
  colon : EndsInColon i'.typedText → EndsInColon rest
  parse : parseTyped scope i i'.typedText = .ok i'
  /-- It starts with a word only if it was read from a text that does. -/
  lead : ∀ w, w.head?.any (· != '!') = true → Unbroken w → ',' ∉ w → i'.operands ≠ [] →
    (∀ v ∈ i'.operands, v.type.toList ≠ w) → rest.head?.all (!isBlank ·) = true →
    after? (w ++ [' ']) rest = none → after? (w ++ [' ']) i'.typedText = none

theorem exists_last_typed {vs : List Value} {p : List Char}
    (h : List.Forall₂ (fun a v => Value.RereadTyped scope a v ∧ trim a = a) args vs)
    (hp : (vs.map fun v => v.typedText.toList).getLast? = some p) :
    ∃ a v, args.getLast? = some a ∧ vs.getLast? = some v ∧ p = v.typedText.toList ∧
      Value.RereadTyped scope a v ∧ trim a = a := by
  rw [List.getLast?_map] at hp
  obtain ⟨v, hlast, rfl⟩ := Option.map_eq_some_iff.1 hp
  obtain ⟨a, ha, hr⟩ := exists_getLast?_of_forall₂ h hlast
  exact ⟨a, v, ha, hlast, rfl, hr⟩

/-- Typed operands without reserved types do not look like suffixes. -/
theorem isClear_typed {vs : List Value} {parts : List (List Char)}
    (htakes : TakesSuffixes i i' parts args)
    (h : List.Forall₂ (fun a v => Value.RereadTyped scope a v ∧ trim a = a) args vs)
    (hreserved : ∀ v ∈ vs, v.hasReservedType = false)
    (hmetadata : i'.alignment = none → i'.metadata = none →
      ∀ v, vs.getLast? = some v → v.isMetadata = false) :
    IsClear i' (vs.map fun v => v.typedText.toList) := by
  constructor
  · intro halign p hp
    obtain ⟨a, v, ha, hv, rfl, hr, htrim⟩ := exists_last_typed h hp
    rw [Option.eq_none_iff_forall_not_mem]
    intro x hx
    have hsome : (after? "align ".toList v.typedText.toList).isSome = true :=
      Option.isSome_iff_exists.2 ⟨x, hx⟩
    rcases hr.lead "align".toList (by decide) (by decide) hsome with hsome | htype
    · have hnone := htakes.align halign a ha
      change (after? "align ".toList (trim a)).isSome = true at hsome
      rw [htrim, hnone] at hsome
      cases hsome
    · have hfalse := hreserved v (List.mem_of_getLast? hv)
      rw [Value.hasReservedType, ← String.ofList_toList (s := v.type), htype] at hfalse
      cases hfalse
  · intro halign hnone p hp
    obtain ⟨a, v, -, hv, rfl, hr, -⟩ := exists_last_typed h hp
    exact hr.metadata (hmetadata halign hnone v hv)

/-- The first word of the text tells the first word of its first part. -/
theorem after?_first {lead p : List Char} {ps : List (List Char)}
    (hs : splitTop? rest = some (p :: ps)) (hrest : rest.head?.all (!isBlank ·) = true)
    (h : (after? lead p).isSome = true) : (after? lead rest).isSome = true := by
  obtain ⟨x, hx⟩ := Option.isSome_iff_exists.1 h
  have hp := after?_eq_some_iff.1 hx
  rcases splitTop?_eq_some hs with ⟨hnil, -⟩ | ⟨q, qs, hparts, rfl, -⟩
  · cases hnil
  · obtain ⟨rfl, -⟩ := List.cons.inj hparts
    rw [Option.isSome_iff_exists]
    cases q with
    | nil =>
        obtain ⟨rfl, -⟩ := List.append_eq_nil_iff.1 hp.symm
        exact ⟨_, after?_eq_some_iff.2 (List.nil_append _).symm⟩
    | cons c q =>
        obtain ⟨b, hb, hq⟩ := exists_trimEnd (c :: q)
        have hstart : trim (c :: q) = trimEnd (c :: q) := by
          rw [trim, trimStart_of_head (s := c :: q) hrest]
        rw [hstart] at hp
        refine ⟨x ++ b ++ qs.flatMap (',' :: ·), after?_eq_some_iff.2 ?_⟩
        conv_lhs => rw [hq, hp]
        simp

/-- Typed operands start with a word only if the text they were read from does. -/
theorem after?_typedText {w : List Char} {sources : List (List Char)}
    (hs : splitTop? rest = some (args ++ sources))
    (h : List.Forall₂ (fun a v => Value.RereadTyped scope a v ∧ trim a = a) args i'.operands)
    (hhead : w.head?.any (· != '!') = true) (hw : Unbroken w) (hcomma : ',' ∉ w)
    (hne : i'.operands ≠ []) (htype : ∀ v ∈ i'.operands, v.type.toList ≠ w)
    (hrest : rest.head?.all (!isBlank ·) = true) (hnone : after? (w ++ [' ']) rest = none) :
    after? (w ++ [' ']) i'.typedText = none := by
  rw [Option.eq_none_iff_forall_not_mem]
  intro x hx
  cases hoperands : i'.operands with
  | nil => exact hne hoperands
  | cons v vs =>
      rw [hoperands] at h
      obtain ⟨a, args', ⟨hr, htrim⟩, -, rfl⟩ := List.forall₂_cons_right_iff.1 h
      have hcomma' : ',' ∉ w ++ [' '] := by simpa using hcomma
      have hsome : (after? (w ++ [' ']) i'.typedText).isSome = true :=
        Option.isSome_iff_exists.2 ⟨x, hx⟩
      rw [typedText, hoperands, List.map_cons, List.cons_append, intercalate_comma] at hsome
      have hfirst := after?_append_comma hcomma' (by
        generalize List.map (fun v => v.typedText.toList) vs ++ i'.suffixes = ps
        cases ps <;> rfl) hsome
      rcases hr.lead w hhead hw hfirst with hfirst | hfirst
      · rw [htrim] at hfirst
        have hsome := after?_first hs hrest hfirst
        rw [hnone] at hsome
        cases hsome
      · exact htype v (by rw [hoperands]; exact List.mem_cons_self) hfirst

/-- The operands among the parts of a text are written again one by one. -/
theorem forall₂_rereadTyped_of_split {vs : List Value} {sources : List (List Char)}
    (hs : splitTop? rest = some (args ++ sources))
    (h : List.Forall₂ (fun a v => Value.parseTyped scope a = .ok v) args vs)
    (hv : ∀ v ∈ vs, v.isRegular = true) :
    List.Forall₂ (fun a v => Value.RereadTyped scope a v ∧ trim a = a) args vs := by
  refine forall₂_imp_of_mem h fun a v ha hmem hparse => ?_
  have hpart : a ∈ args ++ sources := List.mem_append_left sources ha
  refine ⟨Value.rereadTyped_of_parseTyped (piece_of_mem_splitTop? hs hpart) hparse (hv v hmem), ?_⟩
  rcases nil_or_solid_of_mem_splitTop? hs hpart with rfl | hsolid
  · rfl
  · exact hsolid.trim_eq

theorem parseTyped_reread (h : parseTyped scope i rest = .ok i')
    (hv : Value.areRegular i'.operands = true) (hend : i'.endsInMetadata = false) :
    RereadTypedList scope i i' rest := by
  obtain ⟨parts, i₁, args', hparts, hsuffixes, hoperands, hi⟩ := parseTyped_eq_ok_iff.1 h
  have hs := splitOperands_eq_ok_iff.1 hparts
  have htakes := takesSuffixes_of_eq_ok hsuffixes
  have hsuf : i'.suffixes = i₁.suffixes := by rw [hi]; rfl
  rw [Value.areRegular_iff] at hv
  obtain ⟨sources, rfl, -⟩ := htakes.sources
  have hreread := forall₂_rereadTyped_of_split hs hoperands fun v hmem => (hv v hmem).1
  have hrespelled : List.Forall₂ Respelled args' (i'.operands.map fun v => v.typedText.toList) :=
    List.forall₂_map_right_iff.2 (hreread.imp fun _ _ hr => hr.1.toRespelled)
  have hmetadata : i₁.alignment = none → i₁.metadata = none → ∀ v,
      i'.operands.getLast? = some v → v.isMetadata = false := by
    intro halign hmetadata v hlast
    have halign' : i'.alignment = none := by rw [hi]; exact halign
    have hmetadata' : i'.metadata = none := by rw [hi]; exact hmetadata
    rw [endsInMetadata, halign', hmetadata', hlast] at hend
    exact hend
  have hclear := isClear_typed htakes hreread (fun v hmem => (hv v hmem).2) hmetadata
  obtain ⟨hsolid, hsplit, htake, hkeeps, hcolon⟩ := htakes.reread hs hrespelled hclear
  rw [← hsuf] at hsolid hsplit htake hkeeps hcolon
  constructor
  · intro hne
    refine solid_intercalate (fun hnil => hne ?_) hsolid
    simpa using hnil
  · exact hkeeps
  · intro hend
    rcases hcolon hend with hend | ⟨hnil, p, hp, hend⟩
    · exact hend
    · obtain ⟨a, v, -, hlast, rfl, hr, -⟩ := exists_last_typed hreread hp
      rw [hsuf] at hnil
      obtain ⟨halign, hnone⟩ := suffixes_eq_nil_iff.1 hnil
      rw [hr.solid.endsInColon_iff] at hend
      exact absurd hend (hr.colon (hmetadata halign hnone v hlast))
  · refine parseTyped_eq_ok_iff.2 ⟨_, i₁, _, hsplit, htake, ?_, hi⟩
    rw [List.forall₂_map_left_iff, List.forall₂_same]
    exact forall_mem_of_forall₂ (hreread.imp fun _ _ hr => hr.1.parse)
  · intro w hhead hw hcomma
    exact after?_typedText hs hreread hhead hw hcomma

end SsaIr.Instruction
