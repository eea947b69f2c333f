import SsaIr.Instruction
import SsaIr.Json
import SsaIr.Text.Decimal

/-!
# Instructions as JSON

Values are tagged with their kind, operations and predicates with their name, and an instruction
is a record. Every field is written, and null stands for none. Reading takes what was written, and
also a record without its optional and defaulted fields.
-/

namespace SsaIr

def BinaryOp.tag : BinaryOp → String
  | .add => "Add"
  | .sub => "Sub"
  | .mul => "Mul"
  | .udiv => "UDiv"
  | .sdiv => "SDiv"
  | .urem => "URem"
  | .srem => "SRem"
  | .shl => "Shl"
  | .lshr => "LShr"
  | .ashr => "AShr"
  | .and => "And"
  | .or => "Or"
  | .xor => "Xor"
  | .fadd => "FAdd"
  | .fsub => "FSub"
  | .fmul => "FMul"
  | .fdiv => "FDiv"
  | .frem => "FRem"

def BinaryOp.toJson (op : BinaryOp) : Json := .string op.tag

def BinaryOp.ofJson? (j : Json) : Option BinaryOp :=
  j.bareTag?.bind fun tag => all.find? (·.tag = tag)

def CastOp.tag : CastOp → String
  | .trunc => "Trunc"
  | .zext => "ZExt"
  | .sext => "SExt"
  | .bitcast => "BitCast"
  | .ptrtoint => "PtrToInt"
  | .inttoptr => "IntToPtr"

def CastOp.toJson (op : CastOp) : Json := .string op.tag

def CastOp.ofJson? (j : Json) : Option CastOp :=
  j.bareTag?.bind fun tag => all.find? (·.tag = tag)

def Predicate.tag : Predicate → String
  | .eq => "Eq"
  | .ne => "Ne"
  | .ugt => "Ugt"
  | .uge => "Uge"
  | .ult => "Ult"
  | .ule => "Ule"
  | .sgt => "Sgt"
  | .sge => "Sge"
  | .slt => "Slt"
  | .sle => "Sle"

def Predicate.toJson (p : Predicate) : Json := .string p.tag

def Predicate.ofJson? (j : Json) : Option Predicate :=
  j.bareTag?.bind fun tag => all.find? (·.tag = tag)

namespace Opcode

def toJson : Opcode → Json
  | load => .string "Load"
  | store => .string "Store"
  | icmp => .string "Icmp"
  | phi => .string "Phi"
  | call => .string "Call"
  | getElementPtr => .string "GetElementPtr"
  | br => .string "Br"
  | brIcmp => .string "BrIcmp"
  | ret => .string "Ret"
  | alloca => .string "Alloca"
  | unreachable => .string "Unreachable"
  | copy => .string "Copy"
  | binary op => .tagged "Binary" op.toJson
  | cast op => .tagged "Cast" op.toJson

/-- The operation of a tag that carries nothing. -/
def ofTag? : String → Option Opcode
  | "Load" => some load
  | "Store" => some store
  | "Icmp" => some icmp
  | "Phi" => some phi
  | "Call" => some call
  | "GetElementPtr" => some getElementPtr
  | "Br" => some br
  | "BrIcmp" => some brIcmp
  | "Ret" => some ret
  | "Alloca" => some alloca
  | "Unreachable" => some unreachable
  | "Copy" => some copy
  | _ => none

def ofJson? (j : Json) : Option Opcode :=
  match j.variant? with
  | some ("Binary", some payload) => (BinaryOp.ofJson? payload).map binary
  | some ("Cast", some payload) => (CastOp.ofJson? payload).map cast
  | _ => j.bareTag?.bind ofTag?

end Opcode

namespace Value

mutual

def toJson : Value → Json
  | argument name type =>
    .tagged "Argument" (.object [("name", .string name), ("ty", .string type)])
  | global name type =>
    .tagged "Global" (.object [("name", .string name), ("ty", .string type)])
  | int value type =>
    .tagged "ConstantInt" (.object [("value", .int value.toInt), ("ty", .string type)])
  | data literal type =>
    .tagged "ConstantDataArray" (.object [("literal", .string literal), ("ty", .string type)])
  | temp name type =>
    .tagged "Temp" (.object [("name", .string name), ("ty", .string type)])
  | label name => .tagged "Label" (.string name)
  | expr opcode operands type =>
    .tagged "ConstantExpr" (.object [("opcode", .string opcode),
      ("operands", .array (toJsonList operands)), ("ty", .string type)])
  | metadata tag => .tagged "Metadata" (.string tag)

def toJsonList : List Value → List Json
  | [] => []
  | v :: vs => v.toJson :: toJsonList vs

end

/-- A value that names something and has a type. -/
def ofNameJson? (make : (name type : String) → Value) (nameField : String) (payload : Json) :
    Option Value := do
  match ← payload.fields? [nameField, "ty"] with
  | [name, type] =>
    return make (← Json.required Json.asString? name) (← Json.required Json.asString? type)
  | _ => none

/-- The opcode, operands and type of an operation on constants. -/
def exprParts? (payload : Json) : Option (String × List Json × String) := do
  match ← payload.fields? ["opcode", "operands", "ty"] with
  | [opcode, operands, type] =>
    return (← Json.required Json.asString? opcode, ← Json.required Json.asArray? operands,
      ← Json.required Json.asString? type)
  | _ => none

/-- A value that consists of no other values. -/
def leafOfJson? (tag : String) (payload : Json) : Option Value :=
  match tag with
  | "Argument" => ofNameJson? argument "name" payload
  | "Global" => ofNameJson? global "name" payload
  | "ConstantInt" => do
    match ← payload.fields? ["value", "ty"] with
    | [value, type] =>
      let value ← Json.required Json.asInt? value
      return int (← Text.toInt64? value) (← Json.required Json.asString? type)
    | _ => none
  | "ConstantDataArray" => ofNameJson? data "literal" payload
  | "Temp" => ofNameJson? temp "name" payload
  | "Label" => payload.asString?.map label
  | "Metadata" => payload.asString?.map metadata
  | _ => none

theorem sizeOf_lt_of_exprParts? {payload item : Json} {opcode type : String}
    {items : List Json} (h : exprParts? payload = some (opcode, items, type))
    (hi : item ∈ items) : sizeOf item < sizeOf payload := by
  unfold exprParts? at h
  simp only [Option.bind_eq_bind, Option.bind_eq_some_iff] at h
  obtain ⟨fields, hf, h⟩ := h
  split at h
  · next a b c =>
      simp only [Option.bind_eq_some_iff, Option.pure_def,
        Option.some.injEq, Prod.mk.injEq] at h
      obtain ⟨_, -, its, hits, _, -, -, rfl, -⟩ := h
      cases b with
      | none => simp [Json.required] at hits
      | some b =>
          exact Nat.lt_trans (Json.sizeOf_lt_of_asArray? hits hi)
            (Json.sizeOf_lt_of_mem_fields? hf (by simp))
  · simp at h

def ofJson? (j : Json) : Option Value :=
  match _hv : j.variant? with
  | some ("ConstantExpr", some payload) =>
    match _hp : exprParts? payload with
    | none => none
    | some (opcode, items, type) =>
      (items.attach.mapM fun item => ofJson? item.1).map (expr opcode · type)
  | some (tag, some payload) => leafOfJson? tag payload
  | _ => none
termination_by sizeOf j
decreasing_by
  exact Nat.lt_trans (sizeOf_lt_of_exprParts? _hp item.2) (Json.sizeOf_lt_of_variant? _hv)

end Value

namespace Instruction

def incomingToJson (pair : Value × String) : Json :=
  .array [pair.1.toJson, .string pair.2]

def incomingOfJson? : Json → Option (Value × String)
  | .array [value, label] => do return (← Value.ofJson? value, ← label.asString?)
  | _ => none

/-- The 32-bit number of a JSON integer in range. -/
def alignmentOfJson? (j : Json) : Option UInt32 :=
  j.asInt?.bind fun n => if 0 ≤ n ∧ n < 0x100000000 then some (UInt32.ofNat n.toNat) else none

def toJson (i : Instruction) : Json := .object [
  ("name", .ofOption .string i.result),
  ("opcode", i.opcode.toJson),
  ("ty", .ofOption .string i.type),
  ("operands", .ofList Value.toJson i.operands),
  ("predicate", .ofOption Predicate.toJson i.predicate),
  ("incoming", .ofList incomingToJson i.incoming),
  ("alignment", .ofOption (fun n => .int n.toNat) i.alignment),
  ("metadata", .ofOption .string i.metadata),
  ("inbounds", .bool i.inbounds),
  ("offset_load", .bool i.offsetLoad),
  ("tail", .bool i.tail),
  ("flags", .ofList .string i.flags),
  ("cast_to", .ofOption .string i.castType),
  ("comment", .ofOption .string i.comment)]

def fieldNames : List String :=
  ["name", "opcode", "ty", "operands", "predicate", "incoming", "alignment", "metadata",
    "inbounds", "offset_load", "tail", "flags", "cast_to", "comment"]

open Json in
def ofJson? (j : Json) : Option Instruction := do
  match ← j.record? fieldNames 0 with
  | [result, opcode, type, operands, predicate, incoming, alignment, metadata, inbounds,
      offsetLoad, tail, flags, castType, comment] =>
    return {
      result := ← optional asString? result
      opcode := ← required Opcode.ofJson? opcode
      type := ← optional asString? type
      operands := ← required (asList? Value.ofJson?) operands
      predicate := ← optional Predicate.ofJson? predicate
      incoming := ← withDefault [] (asList? incomingOfJson?) incoming
      alignment := ← optional alignmentOfJson? alignment
      metadata := ← optional asString? metadata
      inbounds := ← withDefault false asBool? inbounds
      offsetLoad := ← withDefault false asBool? offsetLoad
      tail := ← withDefault false asBool? tail
      flags := ← withDefault [] (asList? asString?) flags
      castType := ← optional asString? castType
      comment := ← optional asString? comment }
  | _ => none

end Instruction

end SsaIr
