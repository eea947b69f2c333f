import SsaIr.Json.Instruction
import SsaIr.Proofs.Json.Abridged
import SsaIr.Proofs.Text.Identifier

/-!
# Instructions read back from JSON

Values, operations and instructions are what their encodings are read as, abridged or not. For
values this goes by recursion on the value; the rest is put together field by field.
-/

namespace SsaIr

open Json

theorem BinaryOp.undoes_json : Undoes ofJson? toJson :=
  undoes_bareTag fun op => by cases op <;> rfl

theorem CastOp.undoes_json : Undoes ofJson? toJson :=
  undoes_bareTag fun op => by cases op <;> rfl

theorem Predicate.undoes_json : Undoes ofJson? toJson :=
  undoes_bareTag fun p => by cases p <;> rfl

theorem Opcode.undoes_json : Undoes ofJson? toJson := by
  intro op j h
  cases op with
  | binary op =>
      obtain ⟨payload, rfl, hp⟩ := tagged_of_abridged h rfl
      show (BinaryOp.ofJson? payload).map binary = _
      rw [BinaryOp.undoes_json op payload hp]
      rfl
  | cast op =>
      obtain ⟨payload, rfl, hp⟩ := tagged_of_abridged h rfl
      show (CastOp.ofJson? payload).map cast = _
      rw [CastOp.undoes_json op payload hp]
      rfl
  | _ =>
      cases h
      rfl

namespace Value

variable {name type tag opcode : String} {payload : Json} {items : List Json}

theorem ofJson?_leaf (h : tag ≠ "ConstantExpr") :
    ofJson? (tagged tag payload) = leafOfJson? tag payload := by
  rw [ofJson?]
  simp only [tagged, variant?]

theorem ofJson?_expr (h : exprParts? payload = some (opcode, items, type)) :
    ofJson? (tagged "ConstantExpr" payload) = (items.mapM ofJson?).map (expr opcode · type) := by
  rw [ofJson?]
  simp only [tagged, variant?, List.mapM_subtype, List.unattach_attach]
  split
  · next hnone => cases h.symm.trans hnone
  · next hsome =>
      cases h.symm.trans hsome
      rfl

theorem ofNameJson?_of_abridged (make : String → String → Value) {nameField : String}
    (hne : nameField ≠ "ty")
    (h : Abridged (.object [(nameField, .string name), ("ty", .string type)]) payload) :
    ofNameJson? make nameField payload = some (make name type) := by
  obtain ⟨fields, rfl, found⟩ := record_of_abridged h (by simp [hne])
  apply (found nameField (.string name) (by simp)).required undoes_string rfl
  apply (found "ty" (.string type) (by simp)).required undoes_string rfl
  rfl

theorem exprParts?_of_abridged {operands : List Json}
    (h : Abridged (.object [("opcode", .string opcode), ("operands", .array operands),
      ("ty", .string type)]) payload) :
    ∃ items, exprParts? payload = some (opcode, items, type) ∧
      List.Forall₂ Abridged operands items := by
  obtain ⟨fields, rfl, found⟩ := record_of_abridged h (by simp)
  obtain ⟨j, hj, hkept⟩ := (found "operands" (.array operands) (by simp)).exists_kept
    (isOmissible_array rfl operands)
  obtain ⟨items, rfl, hitems⟩ := array_of_abridged hkept
  have hoperands : required asArray? ((Json.object fields).get? "operands") = some items := by
    rw [hj]
    rfl
  refine ⟨items, ?_, hitems⟩
  apply (found "opcode" (.string opcode) (by simp)).required undoes_string rfl
  refine Option.bind_eq_some_iff.2 ⟨items, hoperands, ?_⟩
  apply (found "ty" (.string type) (by simp)).required undoes_string rfl
  rfl

mutual

/-- A value is what its encoding is read as, at any depth of operations. -/
theorem ofJson?_of_abridged : ∀ (v : Value) (j : Json), Abridged v.toJson j → ofJson? j = some v
  | argument name type, j, h => by
    obtain ⟨payload, rfl, hp⟩ := tagged_of_abridged h rfl
    rw [ofJson?_leaf (by decide)]
    exact ofNameJson?_of_abridged argument (by decide) hp
  | global name type, j, h => by
    obtain ⟨payload, rfl, hp⟩ := tagged_of_abridged h rfl
    rw [ofJson?_leaf (by decide)]
    exact ofNameJson?_of_abridged global (by decide) hp
  | int value type, j, h => by
    obtain ⟨payload, rfl, hp⟩ := tagged_of_abridged h rfl
    rw [ofJson?_leaf (by decide)]
    obtain ⟨fields, rfl, found⟩ := record_of_abridged hp (by simp)
    apply (found "value" (.int value.toInt) (by simp)).required undoes_int rfl
    refine Option.bind_eq_some_iff.2 ⟨value, Text.toInt64?_toInt value, ?_⟩
    apply (found "ty" (.string type) (by simp)).required undoes_string rfl
    rfl
  | data literal type, j, h => by
    obtain ⟨payload, rfl, hp⟩ := tagged_of_abridged h rfl
    rw [ofJson?_leaf (by decide)]
    exact ofNameJson?_of_abridged data (by decide) hp
  | temp name type, j, h => by
    obtain ⟨payload, rfl, hp⟩ := tagged_of_abridged h rfl
    rw [ofJson?_leaf (by decide)]
    exact ofNameJson?_of_abridged temp (by decide) hp
  | label name, j, h => by
    obtain ⟨payload, rfl, hp⟩ := tagged_of_abridged h rfl
    cases hp
    rw [ofJson?_leaf (by decide)]
    rfl
  | expr opcode operands type, j, h => by
    obtain ⟨payload, rfl, hp⟩ := tagged_of_abridged h rfl
    obtain ⟨items, hparts, hitems⟩ := exprParts?_of_abridged hp
    rw [ofJson?_expr hparts, mapM_ofJson?_of_abridged operands items hitems]
    rfl
  | metadata tag, j, h => by
    obtain ⟨payload, rfl, hp⟩ := tagged_of_abridged h rfl
    cases hp
    rw [ofJson?_leaf (by decide)]
    rfl

theorem mapM_ofJson?_of_abridged : ∀ (vs : List Value) (items : List Json),
    List.Forall₂ Abridged (toJsonList vs) items → items.mapM ofJson? = some vs
  | [], items, h => by
    cases h
    rfl
  | v :: vs, items, h => by
    cases h with
    | cons hv hvs =>
        simp [List.mapM_cons, ofJson?_of_abridged v _ hv, mapM_ofJson?_of_abridged vs _ hvs]

end

theorem undoes_json : Undoes ofJson? toJson := ofJson?_of_abridged

end Value

namespace Instruction

theorem undoes_incoming : Undoes incomingOfJson? incomingToJson := by
  rintro ⟨value, label⟩ j h
  obtain ⟨items, rfl, hitems⟩ := array_of_abridged h
  cases hitems with
  | cons hvalue hrest =>
      cases hrest with
      | cons hlabel hnone =>
          cases hnone
          simp [incomingOfJson?, Value.undoes_json value _ hvalue, undoes_string label _ hlabel]

theorem undoes_alignment : Undoes alignmentOfJson? fun n => .int n.toNat := by
  intro n j h
  have hn : (0 : Int) ≤ n.toNat ∧ (n.toNat : Int) < 0x100000000 := by
    have := n.toNat_lt
    omega
  rw [alignmentOfJson?, undoes_int _ j h, Option.bind_some, if_pos hn, Int.toNat_natCast,
    UInt32.ofNat_toNat]

theorem undoes_json : Undoes ofJson? toJson := by
  intro i j h
  obtain ⟨fields, rfl, found⟩ := record_of_abridged h (show fieldNames.Nodup by decide)
  -- Field by field, in the order in which they are read.
  apply (found "name" (.ofOption .string i.result) (by simp)).optional undoes_string fun _ => rfl
  apply (found "opcode" i.opcode.toJson (by simp)).required Opcode.undoes_json
    (by cases i.opcode <;> rfl)
  apply (found "ty" (.ofOption .string i.type) (by simp)).optional undoes_string fun _ => rfl
  apply (found "operands" (.ofList Value.toJson i.operands) (by simp)).required
    (undoes_list Value.undoes_json) (isOmissible_array rfl _)
  apply (found "predicate" (.ofOption Predicate.toJson i.predicate) (by simp)).optional
    Predicate.undoes_json fun _ => rfl
  apply (found "incoming" (.ofList incomingToJson i.incoming) (by simp)).withDefault
    (undoes_list undoes_incoming) eq_nil_of_isOmissible
  apply (found "alignment" (.ofOption (fun n => .int n.toNat) i.alignment) (by simp)).optional
    undoes_alignment fun _ => rfl
  apply (found "metadata" (.ofOption .string i.metadata) (by simp)).optional undoes_string
    fun _ => rfl
  apply (found "inbounds" (.bool i.inbounds) (by simp)).withDefault undoes_bool
    eq_false_of_isOmissible
  apply (found "offset_load" (.bool i.offsetLoad) (by simp)).withDefault undoes_bool
    eq_false_of_isOmissible
  apply (found "tail" (.bool i.tail) (by simp)).withDefault undoes_bool eq_false_of_isOmissible
  apply (found "flags" (.ofList .string i.flags) (by simp)).withDefault
    (undoes_list undoes_string) eq_nil_of_isOmissible
  apply (found "cast_to" (.ofOption .string i.castType) (by simp)).optional undoes_string
    fun _ => rfl
  apply (found "comment" (.ofOption .string i.comment) (by simp)).optional undoes_string
    fun _ => rfl
  rfl

end Instruction

end SsaIr
