import SsaIr.Proofs.Value.Scope

/-!
# Values are written on one line

What was read from one line is written on one line, also where it is not read back: names, types
and words are parts of the line, and nothing that is written around them breaks it.
-/

namespace SsaIr

open Text

variable {scope : List String} {s : List Char} {type : String}

theorem newline_of_plain (h : Plain s) : '\n' ∉ s := fun hmem => (h _ hmem).2.2 rfl

theorem newline_of_isIdentifier (h : isIdentifier s = true) : '\n' ∉ s :=
  not_mem_of_isIdentifier h rfl

theorem newline_intercalate {ps : List (List Char)} (h : ∀ p ∈ ps, '\n' ∉ p) :
    '\n' ∉ [',', ' '].intercalate ps := by
  cases ps with
  | nil => decide
  | cons p ps =>
      obtain ⟨hp, hps⟩ := List.forall_mem_cons.1 h
      rw [intercalate_comma, List.mem_append, not_or, List.flatMap_map]
      refine ⟨hp, fun hmem => ?_⟩
      obtain ⟨q, hq, hmem⟩ := List.mem_flatMap.1 hmem
      exact hps q hq (by simpa using hmem)

theorem newline_of_take {t arg : List Char} (h : TypeToken.take s = .ok (t, arg)) (hs : '\n' ∉ s) :
    '\n' ∉ t ∧ '\n' ∉ arg := by
  obtain ⟨gap, -, hsplit⟩ := TypeToken.exists_append_of_take h
  have hstart : '\n' ∉ trimStart s := fun hmem => hs (trimStart_subset _ hmem)
  rw [hsplit] at hstart
  simp only [List.mem_append, not_or] at hstart
  exact ⟨hstart.1.1, hstart.2⟩

theorem newline_of_splitOperands {parts : List (List Char)} (h : splitOperands s = .ok parts)
    (hs : '\n' ∉ s) : ∀ p ∈ parts, '\n' ∉ p := fun _ hp hmem =>
  hs ((Keeps.of_mem_splitTop? (splitOperands_eq_ok_iff.1 h) hp).newline hmem)

/-! ## Values -/

/-- Neither the type nor the text of the value has a line break. -/
structure Value.OneLine (v : Value) : Prop where
  type : '\n' ∉ v.type.toList
  text : '\n' ∉ v.text.toList

namespace Value

variable {v : Value} {vs : List Value}

theorem OneLine.typedText (h : v.OneLine) : '\n' ∉ v.typedText.toList := by
  cases hv : v.isMetadata with
  | true =>
      cases v with
      | metadata tag => exact h.text
      | _ => cases hv
  | false =>
      rw [typedText_eq hv, List.mem_append, not_or, List.mem_cons, not_or]
      exact ⟨h.type, by decide, h.text⟩

theorem oneLine_metadata {tag : String} (htag : '\n' ∉ tag.toList) : (metadata tag).OneLine :=
  ⟨(by decide : '\n' ∉ TypeToken.metadata.toList), htag⟩

theorem oneLine_of_spells (h : Spells scope type s (.value v)) (hs : '\n' ∉ s)
    (htype : '\n' ∉ type.toList) : v.OneLine := by
  generalize hf : Form.value v = f at h
  cases h with
  | metadata hhead =>
      obtain rfl := Form.value.inj hf
      exact oneLine_metadata (by rwa [String.toList_ofList])
  | label hname =>
      obtain rfl := Form.value.inj hf
      refine ⟨(by decide : '\n' ∉ TypeToken.label.toList), ?_⟩
      rw [text_label]
      have hword := isWord_cons (.inl rfl) (sigilName?_eq_some hname).2
      exact hword.not_mem rfl (by decide) (by decide)
  | int hident value =>
      obtain rfl := Form.value.inj hf
      exact ⟨htype, newline_of_isIdentifier (isIdentifier_of_int? (int?_toString value.toInt))⟩
  | localName hident =>
      obtain rfl := Form.value.inj hf
      refine ⟨?_, ?_⟩
      · unfold ofLocalName
        split
        · exact (by decide : '\n' ∉ TypeToken.label.toList)
        · split <;> exact htype
      · rw [text_ofLocalName]
        exact (isWord_cons (.inl rfl) hident).not_mem rfl (by decide) (by decide)
  | global hident =>
      obtain rfl := Form.value.inj hf
      refine ⟨htype, ?_⟩
      rw [text_global]
      exact (isWord_cons (.inr rfl) hident).not_mem rfl (by decide) (by decide)
  | data rest =>
      obtain rfl := Form.value.inj hf
      exact ⟨htype, by rwa [text, String.toList_ofList]⟩
  | expr => cases hf

theorem newline_listText (hvs : ∀ v ∈ vs, v.OneLine) : '\n' ∉ listText vs :=
  newline_intercalate (List.forall_mem_map.2 fun v hv => (hvs v hv).typedText)

theorem newline_expr {ws : List (List Char)} {inside : List Char}
    (h : constantExpression? s = some (ws, inside)) (hvs : ∀ v ∈ vs, v.OneLine) :
    '\n' ∉ (expr (" ".intercalate (ws.map String.ofList)) vs type).text.toList := by
  have hwritten := writtenExpr h vs type
  have hplain : Plain ([' '].intercalate ws ++ [' ']) :=
    plain_of_lower fun _ hc => hwritten.lower hc
  rw [hwritten.text, List.mem_append, not_or]
  refine ⟨newline_of_plain hplain, ?_⟩
  simp [newline_listText hvs]

/-- A typed operand is written on one line, if bare operands no longer than its text are. -/
theorem oneLine_of_parseTyped_of {n : Nat} (h : parseTyped scope s = .ok v) (hs : '\n' ∉ s)
    (hlength : s.length ≤ n)
    (ih : ∀ r type v, r.length ≤ n → parse scope r type = .ok v → '\n' ∉ r → '\n' ∉ type.toList →
      v.OneLine) : v.OneLine := by
  have htrim : '\n' ∉ trim s := fun hmem => hs (trim_subset _ hmem)
  unfold parseTyped at h
  split at h
  · cases h
  · next tag hform =>
      obtain rfl := Except.ok.inj h
      obtain ⟨-, rfl⟩ := typedForm_eq_metadata hform
      exact oneLine_metadata (by rwa [String.toList_ofList])
  · next type value hform =>
      obtain ⟨-, htake⟩ := typedForm_eq_typed hform
      obtain ⟨htype, hvalue⟩ := newline_of_take htake htrim
      exact ih value type v (Nat.le_trans (length_le_of_typedForm hform) hlength) h hvalue htype

theorem oneLine_of_parse (h : parse scope s type = .ok v) (hs : '\n' ∉ s)
    (htype : '\n' ∉ type.toList) : v.OneLine := by
  revert hs htype
  refine parse_induction (motive := fun s type v => '\n' ∉ s → '\n' ∉ type.toList → v.OneLine)
    ?bare ?operation h
  case bare =>
    intro s type v hform hs htype
    have htrim : '\n' ∉ trim s := fun hmem => hs (trim_subset _ hmem)
    exact oneLine_of_spells (spells_of_form hform).2 htrim htype
  case operation =>
    intro s type ws inside vs hexpr hvs ih hs htype
    obtain ⟨parts, hparts, hvs⟩ := bind_eq_ok_iff.1 hvs
    obtain ⟨-, -, -, -, hinside, -⟩ := constantExpression?_eq_some_iff.1 hexpr
    refine ⟨htype, newline_expr hexpr fun v hv => ?_⟩
    obtain ⟨part, hpart, hparse⟩ := exists_of_mem_result hvs hv
    exact oneLine_of_parseTyped_of hparse (newline_of_splitOperands hparts hinside part hpart)
      (length_le_of_mem_splitTop? (splitOperands_eq_ok_iff.1 hparts) hpart) ih

theorem oneLine_of_parseTyped (h : parseTyped scope s = .ok v) (hs : '\n' ∉ s) : v.OneLine :=
  oneLine_of_parseTyped_of h hs (Nat.le_refl _) fun _ _ _ _ => oneLine_of_parse

theorem oneLine_of_parseTypedList (h : parseTypedList scope s = .ok vs) (hs : '\n' ∉ s) :
    ∀ v ∈ vs, v.OneLine := by
  obtain ⟨parts, hparts, hvs⟩ := bind_eq_ok_iff.1 h
  intro v hv
  obtain ⟨part, hpart, hparse⟩ := exists_of_mem_result hvs hv
  exact oneLine_of_parseTyped hparse (newline_of_splitOperands hparts hs part hpart)

end Value

end SsaIr
