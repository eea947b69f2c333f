import SsaIr.Instruction

/-!
# Writing instructions

The text of an instruction without its comment. Each opcode has a form of its own; alignment and
metadata follow it.
-/

namespace SsaIr.Instruction

/-- Values between commas. -/
def bareList (values : List Value) : String := ", ".intercalate (values.map Value.text)

/-- Values between commas, each preceded by its type. -/
def typedList (values : List Value) : String := ", ".intercalate (values.map Value.typedText)

/-- A word and a blank, if the condition holds. -/
def wordIf (condition : Bool) (word : String) : String := if condition then word ++ " " else ""

def predicateText (i : Instruction) : String := match i.predicate with
  | some p => p.keyword ++ " "
  | none => ""

/-- The incoming pairs of a phi, each in square brackets. -/
def incomingText (i : Instruction) : String :=
  ", ".intercalate (i.incoming.map fun (value, label) =>
    "[ " ++ value.text ++ ", %" ++ label ++ " ]")

/-- A call of a function with variadic type spells that type out. -/
def callText (i : Instruction) (type : String) : String :=
  let call := match i.operands.getLast? with
    | some callee =>
      let shown := if TypeToken.isVariadic callee.type then callee.type else type
      "call " ++ shown ++ " " ++ callee.text ++ "(" ++ typedList i.operands.dropLast ++ ")"
    | none => "call " ++ type
  wordIf i.tail "tail" ++ call ++ String.join (i.flags.map (" " ++ ·))

/-- What stands between the result and the suffixes. -/
def body (i : Instruction) : String :=
  let type := i.type.getD TypeToken.void
  match i.opcode with
  | .load => "load " ++ wordIf i.offsetLoad "getelementptr" ++ typedList i.operands
  | .store => "store " ++ typedList i.operands
  | .getElementPtr => "getelementptr " ++ wordIf i.inbounds "inbounds" ++ typedList i.operands
  | .icmp => "icmp " ++ i.predicateText ++ type ++ " " ++ bareList i.operands
  | .brIcmp =>
    "bricmp " ++ i.predicateText ++ type ++ " " ++
      match i.operands with
      | [lhs, rhs, whenFalse, whenTrue] =>
        bareList [lhs, rhs] ++ ", " ++ typedList [whenTrue, whenFalse]
      | operands => bareList operands
  | .phi => "phi " ++ type ++ " " ++ i.incomingText
  | .call => i.callText type
  | .br =>
    "br " ++
      match i.operands with
      | [condition, whenFalse, whenTrue] => typedList [condition, whenTrue, whenFalse]
      | operands => typedList operands
  | .ret => "ret " ++ if i.operands.isEmpty then type else typedList i.operands
  | .alloca => "alloca " ++ type ++ String.join (i.operands.map fun v => ", " ++ v.typedText)
  | .unreachable => "unreachable"
  | .copy => "mov " ++ type ++ " " ++ bareList i.operands
  | .binary op =>
    op.keyword ++ " " ++ String.join (i.flags.map (· ++ " ")) ++ type ++ " " ++ bareList i.operands
  | .cast op =>
    op.keyword ++ " " ++ type ++ " " ++ bareList i.operands ++
      match i.castType with
      | some destination => " to " ++ destination
      | none => ""

def resultText (i : Instruction) : String := match i.result with
  | some name => "%" ++ name ++ " = "
  | none => ""

def suffixText (i : Instruction) : String :=
  (match i.alignment with
    | some n => ", align " ++ toString n.toNat
    | none => "") ++
  (match i.metadata with
    | some tag => ", " ++ tag
    | none => "")

/-- The instruction as written on a line. -/
def text (i : Instruction) : String := i.resultText ++ i.body ++ i.suffixText

end SsaIr.Instruction
