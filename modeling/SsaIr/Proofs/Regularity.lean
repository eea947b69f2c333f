import SsaIr.Module
import SsaIr.Proofs.Text.Nesting

/-!
# Regular modules

A module is written by rules that do not depend on how its lines were spelled, so some spellings
that can be read lead to a text that says something else. The regular modules are those without
such spellings.
-/

namespace SsaIr

open Text

def endsWith (c : Char) (s : String) : Bool := s.toList.getLast? == some c

/-- A comment that does not end in a carriage return, which would belong to the line end. -/
def isRegularComment (comment : Option String) : Bool := comment.all (!endsWith '\r' ·)

namespace Value

/-- A data array that ends at its closing quote. -/
def isQuotation (literal : List Char) : Bool :=
  ((after? ['c', '"'] literal).bind (before? ['"'])).any (!List.elem '"' ·)

/-- Types that are read as words of an instruction. -/
def hasReservedType (v : Value) : Bool :=
  List.elem v.type ["align", "inbounds", "getelementptr"]

/-- Operations whose first word is read as something else. -/
def isReservedOpcode (opcode : String) : Bool :=
  (words opcode.toList).head?.any fun word => List.elem word ["label".toList, "align".toList]

mutual

/-- A value whose parts are written so that they are read back. -/
def isRegular : Value → Bool
  | data literal _ => isQuotation literal.toList
  | metadata tag => decide (Piece tag.toList)
  | expr opcode operands _ => !isReservedOpcode opcode && areRegular operands
  | _ => true

/-- Regular values that can be written behind their types. -/
def areRegular : List Value → Bool
  | [] => true
  | v :: vs => v.isRegular && !v.hasReservedType && areRegular vs

end

def isLabel : Value → Bool
  | label _ => true
  | _ => false

def isMetadata : Value → Bool
  | metadata _ => true
  | _ => false

/-- Neither a label nor metadata. -/
def isPlain (v : Value) : Bool := !v.isLabel && !v.isMetadata

theorem areRegular_iff {vs : List Value} :
    areRegular vs = true ↔ ∀ v ∈ vs, v.isRegular = true ∧ v.hasReservedType = false := by
  induction vs with
  | nil => simp [areRegular]
  | cons v vs ih => simp [areRegular, ih, and_assoc]

end Value

namespace Instruction

/-- Metadata at the end would be read as the metadata tag of the instruction. -/
def endsInMetadata (i : Instruction) : Bool :=
  i.alignment.isNone && i.metadata.isNone && i.operands.getLast?.any Value.isMetadata

/-- What an opcode asks of its operands. -/
def hasRegularForm (i : Instruction) : Bool :=
  match i.opcode with
  | .load | .store | .getElementPtr => Value.areRegular i.operands && !i.endsInMetadata
  | .alloca =>
    Value.areRegular i.operands && !i.endsInMetadata &&
      i.type.any fun type => type != "" && !endsWith ':' type
  | .call => Value.areRegular i.operands.dropLast && i.flags.all (!endsWith ':' ·)
  | .br =>
    match i.operands with
    | [target] => target.isLabel && i.type == some TypeToken.label
    | [condition, whenFalse, whenTrue] =>
      condition.isPlain && whenFalse.isLabel && whenTrue.isLabel
    | _ => false
  | .brIcmp =>
    match i.operands with
    | [lhs, rhs, whenFalse, whenTrue] =>
      lhs.isPlain && rhs.isPlain && whenFalse.isLabel && whenTrue.isLabel
    | _ => false
  | .phi => i.incoming.all (·.1.isPlain)
  | .ret | .icmp | .copy | .binary _ => i.operands.all Value.isPlain
  | .cast _ =>
    i.operands.all Value.isPlain &&
      i.castType.all fun type => (after? "to ".toList type.toList).isNone
  | .unreachable => true

/-- An instruction that is read back from the line it is written on. -/
def isRegular (i : Instruction) : Bool :=
  (!i.tail || i.opcode == .call) && i.inputs.all Value.isRegular && i.hasRegularForm &&
    isRegularComment i.comment

end Instruction

/-- Where the label is written in a comment, blanks at the end of a further comment are lost. -/
def Block.isRegular (b : Block) : Bool :=
  isRegularComment b.comment &&
    (!b.hasNumericLabel || b.comment.all fun c => c.toList.getLast?.all (!isBlank ·)) &&
    b.instructions.all Instruction.isRegular

/-- The last word of a declaration must not look like the start of a body. -/
def Function.isRegular (f : Function) : Bool :=
  isRegularComment f.comment && (!f.isDeclaration || f.modifiers.getLast?.all (!endsWith '\x7b' ·)) &&
    f.blocks.all Block.isRegular

/-- Metadata with blanks is no value behind a type. -/
def Global.isRegular (g : Global) : Bool :=
  isRegularComment g.comment &&
    g.initializer.all fun v => v.isRegular && (!v.isMetadata || !v.text.toList.any isBlank)

/-- A module that is read back from the text it is written as. -/
def Module.isRegular (m : Module) : Bool :=
  m.functions.all Function.isRegular && m.globals.all Global.isRegular

end SsaIr
