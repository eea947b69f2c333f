import SsaIr.NameSet
import SsaIr.Opcode
import SsaIr.Value

/-!
# Instructions

One record serves every opcode. Operands are ordered as the opcode asks, and what only some
opcodes have lies in fields of its own. A branch with two targets keeps them as (false, true):
`br i1 %c, label %T, label %F` has the operands `[%c, %F, %T]`, and
`bricmp eq i32 %a, %b, label %T, label %F` has `[%a, %b, %F, %T]`. A call keeps its callee last.
-/

namespace SsaIr

structure Instruction where
  /-- The name of the result; none for an instruction without a value. -/
  result : Option String := none
  opcode : Opcode
  /-- The type that all bare operands share, or the type of a call. -/
  type : Option String := none
  operands : List Value := []
  predicate : Option Predicate := none
  /-- The incoming values of a phi, each with the label of its predecessor. -/
  incoming : List (Value × String) := []
  alignment : Option UInt32 := none
  metadata : Option String := none
  inbounds : Bool := false
  /-- Whether a load computes its address from offsets written inline. -/
  offsetLoad : Bool := false
  tail : Bool := false
  /-- The wrap flags of a binary operation, or the attributes behind the arguments of a call. -/
  flags : List String := []
  /-- The destination type of a cast. -/
  castType : Option String := none
  /-- The comment on the line, with the blanks before it. -/
  comment : Option String := none
  deriving DecidableEq, Inhabited

namespace Instruction

/-- `%name = mov type value`; without a type of its own, that of the value. -/
def copy (name : String) (type : Option String) (value : Value) : Instruction where
  result := some name
  opcode := .copy
  type := some (type.getD value.type)
  operands := [value]

/-- A branch to one block. -/
def branch (target : String) : Instruction where
  opcode := .br
  type := some TypeToken.label
  operands := [.label target]

/-- A branch to one of two blocks. -/
def condBranch (condition : Value) (whenTrue whenFalse : String) : Instruction where
  opcode := .br
  type := some condition.type
  operands := [condition, .label whenFalse, .label whenTrue]

/-- A comparison and the branch on its outcome in one. -/
def compareBranch (predicate : Predicate) (type : String) (lhs rhs : Value)
    (whenTrue whenFalse : String) : Instruction where
  opcode := .brIcmp
  type := some type
  operands := [lhs, rhs, .label whenFalse, .label whenTrue]
  predicate := some predicate

/-- The names defined: that of the result, if there is one. -/
def defines (i : Instruction) : NameSet := NameSet.ofList i.result.toList

/-- The values read: operands, and the incoming values of a phi. -/
def inputs (i : Instruction) : List Value := i.operands ++ i.incoming.map Prod.fst

/-- The names of the parameters and temporaries read. -/
def uses (i : Instruction) : NameSet := NameSet.ofList (i.inputs.filterMap Value.localName?)

/-- The labels a branch goes on to, the true side before the false side. -/
def branchTargets (i : Instruction) : List String :=
  let targets := match i.opcode, i.operands with
    | .br, [target] => [target]
    | .br, [_, whenFalse, whenTrue] => [whenTrue, whenFalse]
    | .brIcmp, [_, _, whenFalse, whenTrue] => [whenTrue, whenFalse]
    | _, _ => []
  targets.filterMap Value.labelName?

def isTerminator (i : Instruction) : Bool := i.opcode.isTerminator

def isPhi (i : Instruction) : Bool := i.opcode = .phi

@[simp] theorem mem_defines {i : Instruction} {x : String} :
    x ∈ i.defines ↔ i.result = some x := by
  simp [defines]

@[simp] theorem mem_uses {i : Instruction} {x : String} :
    x ∈ i.uses ↔ ∃ v ∈ i.inputs, v.localName? = some x := by
  simp [uses]

end Instruction

end SsaIr
