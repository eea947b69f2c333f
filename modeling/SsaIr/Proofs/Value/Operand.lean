import Mathlib.Data.List.TakeWhile
import SsaIr.Proofs.Value.RoundTrip

/-!
# Operands from outside

Types and operands that were not read from a text but come with a name or a number of their own.
The simple ones among them are read back from what they are written as.
-/

namespace SsaIr

open Text

namespace TypeToken

/-- Words that in front of an operand, or in place of one, are no types. -/
def reserved : List String :=
  ["label", "metadata", "align", "inbounds", "getelementptr", "nsw", "nuw", "exact"]

/-- Letters and digits with stars behind them, and no reserved word. -/
def isSimple (type : String) : Bool :=
  type != "" && (type.toList.dropWhile Char.isAlphanum).all (· == '*') && !reserved.elem type

/-- A simple type that a value can have. -/
def isSimpleValue (type : String) : Bool := isSimple type && type != void

variable {type : String} {c : Char}

theorem isSimple_of_isSimpleValue (h : isSimpleValue type = true) : isSimple type = true :=
  (Bool.and_eq_true_iff.1 h).1

theorem toList_ne_nil_of_isSimple (h : isSimple type = true) : type.toList ≠ [] := by
  rw [isSimple, Bool.and_eq_true, Bool.and_eq_true, bne_iff_ne] at h
  exact fun hnil => h.1.1 (String.toList_injective hnil)

theorem mem_of_isSimple (h : isSimple type = true) (hc : c ∈ type.toList) :
    c.isAlphanum = true ∨ c = '*' := by
  rw [isSimple, Bool.and_eq_true, Bool.and_eq_true, List.all_eq_true] at h
  rw [← List.takeWhile_append_dropWhile (p := Char.isAlphanum) (l := type.toList),
    List.mem_append] at hc
  rcases hc with hc | hc
  · exact .inl (List.all_eq_true.1 List.all_takeWhile c hc)
  · exact .inr (beq_iff_eq.1 (h.1.2 c hc))

theorem not_mem_of_isSimple (h : isSimple type = true) (hc : c.isAlphanum = false)
    (hstar : c ≠ '*') : c ∉ type.toList := by
  intro hmem
  rcases mem_of_isSimple h hmem with halpha | rfl
  · rw [hc] at halpha
    cases halpha
  · exact hstar rfl

theorem ne_of_isSimple {word : String} (h : isSimple type = true) (hword : word ∈ reserved) :
    type ≠ word := by
  rintro rfl
  rw [isSimple, Bool.and_eq_true, Bool.not_eq_true'] at h
  have helem : reserved.elem type = true := List.elem_iff.2 hword
  rw [h.2] at helem
  cases helem

theorem unbroken_of_isSimple (h : isSimple type = true) : Unbroken type.toList := by
  intro c hc
  rcases mem_of_isSimple h hc with halpha | rfl
  · exact isBlank_of_isAlphanum halpha
  · rfl

theorem plain_of_isSimple (h : isSimple type = true) : Plain type.toList := by
  intro c hc
  refine ⟨?_, ?_, ?_⟩ <;>
  · rintro rfl
    exact not_mem_of_isSimple h rfl (by decide) hc

theorem piece_of_isSimple (h : isSimple type = true) : Piece type.toList := by
  apply piece_of_neutral
  intro c hc
  refine ⟨⟨?_, ?_, ?_⟩, ?_⟩
  · rintro rfl
    exact not_mem_of_isSimple h rfl (by decide) hc
  · rcases mem_of_isSimple h hc with halpha | rfl
    · exact (neutral_of_isIdentifierChar (by simp [isIdentifierChar, halpha])).2.1
    · rfl
  · rcases mem_of_isSimple h hc with halpha | rfl
    · exact (neutral_of_isIdentifierChar (by simp [isIdentifierChar, halpha])).2.2
    · rfl
  · rintro rfl
    exact not_mem_of_isSimple h rfl (by decide) hc

theorem isToken_of_isSimple (h : isSimple type = true) : IsToken type.toList := by
  have hne := toList_ne_nil_of_isSimple h
  have hsolid : Solid type.toList := .of_unbroken (unbroken_of_isSimple h) hne
  have hrun : takeHead type.toList = .ok (type.toList, []) := by
    have hstop : ∀ c ∈ type.toList, (!stops c) = true := by
      intro c hc
      rw [stops, unbroken_of_isSimple h c hc, Bool.false_or, Bool.not_eq_true', beq_eq_false_iff_ne]
      rintro rfl
      exact not_mem_of_isSimple h rfl (by decide) hc
    rw [takeHead_run, List.takeWhile_eq_self_iff.2 hstop, List.dropWhile_eq_nil_iff.2 hstop]
    intro c hc
    refine ⟨?_, ?_, ?_⟩ <;>
    · rintro rfl
      exact not_mem_of_isSimple h rfl (by decide) (List.mem_of_mem_head? hc)
  exact isToken_of_take (take_of_head hne hsolid.head_all hrun (by decide)) hne

end TypeToken

namespace Value

/-- A reference by name, or a number; parameters are those in scope. -/
def isOperand (scope : List String) : Value → Bool
  | argument name _ => isIdentifier name.toList && scope.elem name
  | temp name _ => isIdentifier name.toList && !scope.elem name
  | global name _ => isIdentifier name.toList
  | int .. => true
  | _ => false

variable {scope : List String} {v : Value}

theorem isPlain_of_isOperand (h : v.isOperand scope = true) : v.isPlain = true := by
  cases v <;> first | rfl | cases h

theorem isRegular_of_isOperand (h : v.isOperand scope = true) : v.isRegular = true := by
  cases v <;> first | rfl | cases h

theorem isMetadata_of_isOperand (h : v.isOperand scope = true) : v.isMetadata = false := by
  cases v <;> first | rfl | cases h

theorem isWord_of_isOperand (h : v.isOperand scope = true) : IsWord v.text.toList := by
  cases v with
  | argument name type =>
    rw [isOperand, Bool.and_eq_true] at h
    rw [text, String.toList_append]
    exact isWord_cons (.inl rfl) h.1
  | temp name type =>
    rw [isOperand, Bool.and_eq_true] at h
    rw [text, String.toList_append]
    exact isWord_cons (.inl rfl) h.1
  | global name type =>
    rw [text_global]
    exact isWord_cons (.inr rfl) h
  | int value type =>
    exact isWord_of_isIdentifier (isIdentifier_of_int? (int?_toString value.toInt))
  | _ => cases h

/-- A bare operand is read with its type. -/
theorem form_of_isOperand (h : v.isOperand scope = true) (htype : v.type ≠ TypeToken.label) :
    form scope v.text.toList v.type = .ok (.value v) := by
  cases v with
  | argument name type =>
    rw [isOperand, Bool.and_eq_true, List.elem_iff] at h
    rw [text, String.toList_append]
    refine (form_localName h.1).trans ?_
    rw [ofLocalName, if_neg htype, if_pos h.2]
    rfl
  | temp name type =>
    rw [isOperand, Bool.and_eq_true, Bool.not_eq_true', ← Bool.not_eq_true, List.elem_iff] at h
    rw [text, String.toList_append]
    refine (form_localName h.1).trans ?_
    rw [ofLocalName, if_neg htype, if_neg h.2]
    rfl
  | global name type =>
    rw [text_global]
    exact form_global h
  | int value type => exact form_int value
  | _ => cases h

/-- An operand is read again from what it is written as. -/
theorem reread_of_isOperand (h : v.isOperand scope = true) (htype : v.type ≠ TypeToken.label) :
    Reread scope v.type v.text.toList v := by
  have hword := isWord_of_isOperand h
  refine Reparses.reread_of_isWord ?_ hword hword.piece hword.plain.not_mem_quote
  refine .of_isWord hword (isMetadata_of_isOperand h) (fun _ => rfl) fun type' hplain _ => ?_
  rw [hplain (isPlain_of_isOperand h)]
  exact form_of_isOperand h htype

theorem rereadTyped_of_isOperand (h : v.isOperand scope = true)
    (htype : TypeToken.isSimple v.type = true) :
    RereadTyped scope v.typedText.toList v := by
  have hmetadata := isMetadata_of_isOperand h
  have hreread := reread_of_isOperand h (TypeToken.ne_of_isSimple htype (by decide))
  have htext := typedText_eq hmetadata
  have htoken := TypeToken.isToken_of_isSimple htype
  have hsource : Piece v.typedText.toList := by
    rw [htext]
    exact (TypeToken.piece_of_isSimple htype).append (blanks_space.piece.append hreread.piece)
  refine .of_reread hmetadata hreread htoken ?_ (TypeToken.piece_of_isSimple htype) hsource ?_ ?_
  · exact fun hhead =>
      TypeToken.not_mem_of_isSimple htype (c := '!') rfl (by decide) (List.mem_of_mem_head? hhead)
  · rw [← htext]
    exact .refl _
  · intro w _ hw
    obtain ⟨rest, hrest⟩ := Option.isSome_iff_exists.1 hw
    have hsplit := after?_eq_some_iff.1 hrest
    exact absurd (by rw [hsplit]; simp : ' ' ∈ v.type.toList)
      (TypeToken.not_mem_of_isSimple htype rfl (by decide))

end Value

end SsaIr
