import SsaIr.Json.Module
import SsaIr.Proofs.Json.Instruction

/-!
# Modules read back from JSON

Main statement: a module, whether or not a text denotes it, is what its encoding is read as, and
also what every abridged form of the encoding is read as.
-/

namespace SsaIr

open Json

theorem Block.undoes_json : Undoes ofJson? toJson := by
  intro b j h
  obtain ⟨fields, rfl, found⟩ := record_of_abridged h (by simp)
  apply (found "label" (.string b.label) (by simp)).required undoes_string rfl
  apply (found "instructions" (.ofList Instruction.toJson b.instructions) (by simp)).required
    (undoes_list Instruction.undoes_json) (isOmissible_array rfl _)
  apply (found "comment" (.ofOption .string b.comment) (by simp)).optional undoes_string
    fun _ => rfl
  rfl

theorem ParameterAttribute.undoes_json : Undoes ofJson? toJson := by
  intro a j h
  cases a
  cases h
  rfl

theorem Parameter.undoes_json : Undoes ofJson? toJson := by
  intro p j h
  obtain ⟨fields, rfl, found⟩ := record_of_abridged h (by simp)
  apply (found "name" (.ofOption .string p.name) (by simp)).optional undoes_string fun _ => rfl
  apply (found "ty" (.string p.type) (by simp)).required undoes_string rfl
  apply (found "attributes" (.ofList ParameterAttribute.toJson p.attributes) (by simp)).withDefault
    (undoes_list ParameterAttribute.undoes_json) eq_nil_of_isOmissible
  rfl

theorem Function.undoes_json : Undoes ofJson? toJson := by
  intro f j h
  obtain ⟨fields, rfl, found⟩ := record_of_abridged h (show fieldNames.Nodup by decide)
  apply (found "name" (.string f.name) (by simp)).required undoes_string rfl
  apply (found "return_type" (.string f.returnType) (by simp)).required undoes_string rfl
  apply (found "parameters" (.ofList Parameter.toJson f.parameters) (by simp)).required
    (undoes_list Parameter.undoes_json) (isOmissible_array rfl _)
  apply (found "blocks" (.ofList Block.toJson f.blocks) (by simp)).required
    (undoes_list Block.undoes_json) (isOmissible_array rfl _)
  apply (found "is_declaration" (.bool f.isDeclaration) (by simp)).required undoes_bool
    (isOmissible_bool rfl _)
  apply (found "does_not_throw" (.bool f.doesNotThrow) (by simp)).required undoes_bool
    (isOmissible_bool rfl _)
  apply (found "readonly" (.bool f.readonly) (by simp)).required undoes_bool
    (isOmissible_bool rfl _)
  apply (found "is_variadic" (.bool f.isVariadic) (by simp)).required undoes_bool
    (isOmissible_bool rfl _)
  apply (found "modifiers" (.ofList .string f.modifiers) (by simp)).withDefault
    (undoes_list undoes_string) eq_nil_of_isOmissible
  apply (found "comment" (.ofOption .string f.comment) (by simp)).optional undoes_string
    fun _ => rfl
  rfl

theorem Linkage.undoes_json : Undoes ofJson? toJson :=
  undoes_bareTag fun l => by cases l <;> rfl

theorem Global.undoes_json : Undoes ofJson? toJson := by
  intro g j h
  obtain ⟨fields, rfl, found⟩ := record_of_abridged h (show fieldNames.Nodup by decide)
  apply (found "name" (.string g.name) (by simp)).required undoes_string rfl
  apply (found "ty" (.string g.type) (by simp)).required undoes_string rfl
  apply (found "initializer" (.ofOption Value.toJson g.initializer) (by simp)).optional
    Value.undoes_json fun v => by cases v <;> rfl
  apply (found "linkage" g.linkage.toJson (by simp)).required Linkage.undoes_json rfl
  apply (found "alignment" (.ofOption (fun n => .int n.toNat) g.alignment) (by simp)).optional
    Instruction.undoes_alignment fun _ => rfl
  apply (found "is_constant" (.bool g.isConstant) (by simp)).required undoes_bool
    (isOmissible_bool rfl _)
  apply (found "unnamed_addr" (.bool g.unnamedAddr) (by simp)).required undoes_bool
    (isOmissible_bool rfl _)
  apply (found "is_declaration" (.bool g.isDeclaration) (by simp)).required undoes_bool
    (isOmissible_bool rfl _)
  apply (found "comment" (.ofOption .string g.comment) (by simp)).optional undoes_string
    fun _ => rfl
  rfl

namespace Module

theorem undoes_json : Undoes ofJson? toJson := by
  intro m j h
  obtain ⟨fields, rfl, found⟩ := record_of_abridged h (by simp)
  apply (found "module_id" (.ofOption .string m.moduleId) (by simp)).optional undoes_string
    fun _ => rfl
  apply (found "functions" (.ofList Function.toJson m.functions) (by simp)).required
    (undoes_list Function.undoes_json) (isOmissible_array rfl _)
  apply (found "globals" (.ofList Global.toJson m.globals) (by simp)).required
    (undoes_list Global.undoes_json) (isOmissible_array rfl _)
  apply (found "target_info" (.ofList .string m.targetInfo) (by simp)).required
    (undoes_list undoes_string) (isOmissible_array rfl _)
  apply (found "metadata" (.ofList .string m.metadata) (by simp)).required
    (undoes_list undoes_string) (isOmissible_array rfl _)
  rfl

/-- Every module is what its encoding is read as, whole or abridged in any way. -/
theorem read_back_from_json (m : Module) :
    ofJson? m.toJson = some m ∧ ∀ j, Abridged m.toJson j → ofJson? j = some m :=
  ⟨undoes_json m _ (abridged_refl _), undoes_json m⟩

/-- A module that no text denotes: a declaration with a block, and in it a phi of an operation on
a label and on metadata. -/
def odd : Module where
  functions :=
    [{ name := "f", returnType := "", isDeclaration := true
       blocks :=
        [{ label := ""
           instructions :=
            [{ opcode := .phi, alignment := some 4294967295
               incoming := [(.expr "add" [.expr "neg" [.label "x", .int (-1) "i8"] "", .metadata ""]
                "i8", "y")] }] }] }]

/-- All that may be left out of the encoding of `odd` is left out. -/
theorem read_back_from_json_odd :
    odd.toJson.shortest = .object [
      ("functions", .array [.object [
        ("name", .string "f"), ("return_type", .string ""), ("parameters", .array []),
        ("blocks", .array [.object [
          ("label", .string ""),
          ("instructions", .array [.object [
            ("opcode", .string "Phi"), ("operands", .array []),
            ("incoming", .array [.array [
              .tagged "ConstantExpr" (.object [
                ("opcode", .string "add"),
                ("operands", .array [
                  .tagged "ConstantExpr" (.object [
                    ("opcode", .string "neg"),
                    ("operands", .array [
                      .tagged "Label" (.string "x"),
                      .tagged "ConstantInt" (.object
                        [("value", .int (-1)), ("ty", .string "i8")])]),
                    ("ty", .string "")]),
                  .tagged "Metadata" (.string "")]),
                ("ty", .string "i8")]),
              .string "y"]]),
            ("alignment", .int 4294967295)]])]]),
        ("is_declaration", .bool true), ("does_not_throw", .bool false),
        ("readonly", .bool false), ("is_variadic", .bool false)]]),
      ("globals", .array []), ("target_info", .array []), ("metadata", .array [])] ∧
    ofJson? odd.toJson.shortest = some odd :=
  ⟨rfl, (read_back_from_json odd).2 _ (abridged_shortest _)⟩

end Module

end SsaIr
