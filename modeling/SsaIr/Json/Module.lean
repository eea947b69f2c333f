import SsaIr.Json.Instruction
import SsaIr.Module

/-!
# Modules as JSON

Blocks, functions, global variables and modules are records. Reading checks the kinds of the
fields and nothing else, so every model can be read, also one that no text denotes.
-/

namespace SsaIr

open Json

namespace Block

def toJson (b : Block) : Json := .object [
  ("label", .string b.label),
  ("instructions", .ofList Instruction.toJson b.instructions),
  ("comment", .ofOption .string b.comment)]

def ofJson? (j : Json) : Option Block := do
  match ← j.record? ["label", "instructions", "comment"] 0 with
  | [label, instructions, comment] =>
    return {
      label := ← required asString? label
      instructions := ← required (asList? Instruction.ofJson?) instructions
      comment := ← optional asString? comment }
  | _ => none

end Block

namespace ParameterAttribute

def toJson : ParameterAttribute → Json
  | noCapture => .string "NoCapture"

def ofJson? (j : Json) : Option ParameterAttribute :=
  if j.bareTag? = some "NoCapture" then some noCapture else none

end ParameterAttribute

namespace Parameter

def toJson (p : Parameter) : Json := .object [
  ("name", .ofOption .string p.name),
  ("ty", .string p.type),
  ("attributes", .ofList ParameterAttribute.toJson p.attributes)]

def ofJson? (j : Json) : Option Parameter := do
  match ← j.record? ["name", "ty", "attributes"] 1 with
  | [name, type, attributes] =>
    return {
      name := ← optional asString? name
      type := ← required asString? type
      attributes := ← withDefault [] (asList? ParameterAttribute.ofJson?) attributes }
  | _ => none

end Parameter

namespace Function

def toJson (f : Function) : Json := .object [
  ("name", .string f.name),
  ("return_type", .string f.returnType),
  ("parameters", .ofList Parameter.toJson f.parameters),
  ("blocks", .ofList Block.toJson f.blocks),
  ("is_declaration", .bool f.isDeclaration),
  ("does_not_throw", .bool f.doesNotThrow),
  ("readonly", .bool f.readonly),
  ("is_variadic", .bool f.isVariadic),
  ("modifiers", .ofList .string f.modifiers),
  ("comment", .ofOption .string f.comment)]

def fieldNames : List String :=
  ["name", "return_type", "parameters", "blocks", "is_declaration", "does_not_throw", "readonly",
    "is_variadic", "modifiers", "comment"]

def ofJson? (j : Json) : Option Function := do
  match ← j.record? fieldNames 0 with
  | [name, returnType, parameters, blocks, isDeclaration, doesNotThrow, readonly, isVariadic,
      modifiers, comment] =>
    return {
      name := ← required asString? name
      returnType := ← required asString? returnType
      parameters := ← required (asList? Parameter.ofJson?) parameters
      blocks := ← required (asList? Block.ofJson?) blocks
      isDeclaration := ← required asBool? isDeclaration
      doesNotThrow := ← required asBool? doesNotThrow
      readonly := ← required asBool? readonly
      isVariadic := ← required asBool? isVariadic
      modifiers := ← withDefault [] (asList? asString?) modifiers
      comment := ← optional asString? comment }
  | _ => none

end Function

namespace Linkage

def all : List Linkage := external :: spelled

def tag : Linkage → String
  | external => "External"
  | private_ => "Private"
  | internal => "Internal"
  | linkOnce => "LinkOnce"
  | weak => "Weak"
  | common => "Common"

def toJson (l : Linkage) : Json := .string l.tag

def ofJson? (j : Json) : Option Linkage := j.bareTag?.bind fun t => all.find? (·.tag = t)

end Linkage

namespace Global

def toJson (g : Global) : Json := .object [
  ("name", .string g.name),
  ("ty", .string g.type),
  ("initializer", .ofOption Value.toJson g.initializer),
  ("linkage", g.linkage.toJson),
  ("alignment", .ofOption (fun n => .int n.toNat) g.alignment),
  ("is_constant", .bool g.isConstant),
  ("unnamed_addr", .bool g.unnamedAddr),
  ("is_declaration", .bool g.isDeclaration),
  ("comment", .ofOption .string g.comment)]

def fieldNames : List String :=
  ["name", "ty", "initializer", "linkage", "alignment", "is_constant", "unnamed_addr",
    "is_declaration", "comment"]

def ofJson? (j : Json) : Option Global := do
  match ← j.record? fieldNames 0 with
  | [name, type, initializer, linkage, alignment, isConstant, unnamedAddr, isDeclaration,
      comment] =>
    return {
      name := ← required asString? name
      type := ← required asString? type
      initializer := ← optional Value.ofJson? initializer
      linkage := ← required Linkage.ofJson? linkage
      alignment := ← optional Instruction.alignmentOfJson? alignment
      isConstant := ← required asBool? isConstant
      unnamedAddr := ← required asBool? unnamedAddr
      isDeclaration := ← required asBool? isDeclaration
      comment := ← optional asString? comment }
  | _ => none

end Global

namespace Module

def toJson (m : Module) : Json := .object [
  ("module_id", .ofOption .string m.moduleId),
  ("functions", .ofList Function.toJson m.functions),
  ("globals", .ofList Global.toJson m.globals),
  ("target_info", .ofList .string m.targetInfo),
  ("metadata", .ofList .string m.metadata)]

def ofJson? (j : Json) : Option Module := do
  match ← j.record? ["module_id", "functions", "globals", "target_info", "metadata"] 0 with
  | [moduleId, functions, globals, targetInfo, metadata] =>
    return {
      moduleId := ← optional asString? moduleId
      functions := ← required (asList? Function.ofJson?) functions
      globals := ← required (asList? Global.ofJson?) globals
      targetInfo := ← required (asList? asString?) targetInfo
      metadata := ← required (asList? asString?) metadata }
  | _ => none

end Module

end SsaIr
