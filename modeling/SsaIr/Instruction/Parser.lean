import SsaIr.Instruction
import SsaIr.Value.Parser

/-!
# Reading instructions

A line of code is `[%name =] [tail] opcode rest`, and the opcode decides how the rest is written.
Most opcodes declare one type that all operands share; memory operations and calls type each
operand. Behind the operands may stand `align N` and then a metadata tag.
-/

namespace SsaIr.Instruction

open Text

/-- The arguments without a metadata tag at the end, and that tag. -/
def takeMetadata (args : List (List Char)) : List (List Char) × Option String :=
  match args.getLast? with
  | some ('!' :: tag) => (args.dropLast, some (String.ofList ('!' :: tag)))
  | _ => (args, none)

/-- The arguments without an alignment at the end, and that alignment. -/
def takeAlignment (args : List (List Char)) :
    Except ParseError (List (List Char) × Option UInt32) :=
  match args.getLast?.bind (after? "align ".toList) with
  | none => .ok (args, none)
  | some numeral =>
    match uint32? (trim numeral) with
    | some n => .ok (args.dropLast, some n)
    | none => .error (.invalidInteger (String.ofList (trim numeral)))

/-- Move the suffixes at the end of the arguments into the instruction. -/
def takeSuffixes (i : Instruction) (args : List (List Char)) :
    Except ParseError (Instruction × List (List Char)) := do
  let (args, metadata) := takeMetadata args
  let (args, alignment) ← takeAlignment args
  return ({ i with alignment, metadata }, args)

/-- The instruction itself, if it has as many operands as its opcode takes. -/
def expectOperands (count : Nat) (i : Instruction) : Except ParseError Instruction :=
  if i.operands.length = count then .ok i
  else .error (.missingOperand ("`" ++ i.opcode.keyword ++ "` takes " ++ toString count ++
    " operand(s), found " ++ toString i.operands.length))

/-- The instruction itself, if it has an operand. -/
def expectSomeOperand (i : Instruction) : Except ParseError Instruction :=
  if i.operands.isEmpty then
    .error (.missingOperand ("`" ++ i.opcode.keyword ++ "` takes at least one operand"))
  else .ok i

/-- `type v, w, ...`, where every operand has the declared type. -/
def parseShared (scope : List String) (i : Instruction) (rest : List Char) :
    Except ParseError Instruction := do
  let (typeText, args) ← TypeToken.take rest
  let type := String.ofList typeText
  let (i, args) ← takeSuffixes { i with type := some type } (← splitOperands args)
  let operands ← args.mapM (Value.parse scope · type)
  return { i with operands }

/-- `type v, type w, ...`, where every operand has a type of its own. -/
def parseTyped (scope : List String) (i : Instruction) (rest : List Char) :
    Except ParseError Instruction := do
  let (i, args) ← takeSuffixes i (← splitOperands rest)
  let operands ← args.mapM (Value.parseTyped scope)
  return { i with operands }

/-- Exchange the two targets of a branch, which are written true first and kept false first. -/
def exchangeTargets : List Value → List Value
  | [condition, whenTrue, whenFalse] => [condition, whenFalse, whenTrue]
  | [lhs, rhs, whenTrue, whenFalse] => [lhs, rhs, whenFalse, whenTrue]
  | operands => operands

@[simp] theorem length_exchangeTargets (operands : List Value) :
    (exchangeTargets operands).length = operands.length := by
  unfold exchangeTargets
  split <;> simp

/-- Exchanging the targets of a branch does not change what its operands are. -/
theorem mem_exchangeTargets {v : Value} {operands : List Value} :
    v ∈ exchangeTargets operands ↔ v ∈ operands := by
  unfold exchangeTargets
  split <;> simp [or_comm]

/-- `predicate type v, w`, and for a branch its two targets. -/
def parseCompare (scope : List String) (i : Instruction) (rest : List Char) (count : Nat) :
    Except ParseError Instruction := do
  let (word, rest) := nextToken rest
  match Predicate.ofKeyword? (String.ofList word) with
  | none => throw (.unknownPredicate (String.ofList word))
  | some predicate =>
    let i ← parseShared scope { i with predicate := some predicate } rest
    let i ← expectOperands count i
    return { i with operands := exchangeTargets i.operands }

/-- A load from an address, or with `getelementptr` from an address and offsets. -/
def parseLoad (scope : List String) (i : Instruction) (rest : List Char) :
    Except ParseError Instruction := do
  match after? "getelementptr ".toList rest with
  | some rest => expectSomeOperand (← parseTyped scope { i with offsetLoad := true } rest)
  | none => expectOperands 1 (← parseTyped scope i rest)

def parseGetElementPtr (scope : List String) (i : Instruction) (rest : List Char) :
    Except ParseError Instruction := do
  match after? "inbounds ".toList rest with
  | some rest => expectSomeOperand (← parseTyped scope { i with inbounds := true } rest)
  | none => expectSomeOperand (← parseTyped scope i rest)

/-- One incoming pair `[ value, %label ]`. -/
def parseIncoming (scope : List String) (type : String) (pair : List Char) :
    Except ParseError (Value × String) := do
  let malformed := ParseError.unknownArgument (String.ofList pair)
  match (after? ['['] pair).bind (before? [']']) with
  | none => throw malformed
  | some inside =>
    match ← splitOperands inside with
    | [value, label] =>
      match sigilName? '%' label with
      | none => throw (.unknownArgument (String.ofList label))
      | some name => return (← Value.parse scope value type, name)
    | _ => throw malformed

def parsePhi (scope : List String) (i : Instruction) (rest : List Char) :
    Except ParseError Instruction := do
  let (typeText, pairs) ← TypeToken.take rest
  let type := String.ofList typeText
  let (i, pairs) ← takeSuffixes { i with type := some type } (← splitOperands pairs)
  let incoming ← pairs.mapM (parseIncoming scope type)
  if incoming.isEmpty then throw (.missingOperand "phi without incoming values")
  else return { i with incoming }

/-- Complain about the first of the arguments that suffixes left over. -/
def expectNoMore (place : String) (args : List (List Char)) : Except ParseError Unit :=
  match args with
  | [] => .ok ()
  | extra :: _ => .error (.unexpected ("`" ++ String.ofList extra ++ "` after " ++ place))

/-- `type callee(arguments) flags, suffixes`; the callee becomes the last operand and has the
type of the call. -/
def parseCall (scope : List String) (i : Instruction) (rest : List Char) :
    Except ParseError Instruction := do
  let (typeText, rest) ← TypeToken.take rest
  let type := String.ofList typeText
  match splitAtTop? '(' {} rest with
  | none => throw (.missingOperand "call without an argument list")
  | some (front, arguments) =>
    let callee := trim front
    if callee.head? ≠ some '@' ∧ callee.head? ≠ some '%' then
      throw (.unknownArgument (String.ofList callee))
    match takeBracketed? {} ('(' :: arguments) with
    | none => throw (.unbalancedBrackets (String.ofList rest))
    | some (bracketed, behind) =>
      let arguments ← Value.parseTypedList scope bracketed.tail.dropLast
      let operands := arguments ++ [← Value.parse scope callee type]
      let trailing := trim behind
      let (flags, suffixes) := (splitAtTop? ',' {} trailing).getD (trailing, [])
      let flags := (words flags).map String.ofList
      let (i, extra) ← takeSuffixes { i with type := some type, operands, flags }
        (← splitOperands suffixes)
      expectNoMore "call" extra
      return i

/-- A branch with one target, or with a condition and two. -/
def parseBr (scope : List String) (i : Instruction) (rest : List Char) :
    Except ParseError Instruction := do
  let i ← parseShared scope i rest
  match i.operands.length with
  | 1 | 3 => return { i with operands := exchangeTargets i.operands }
  | n => throw (.missingOperand ("`br " ++ i.type.getD "" ++ "` takes 1 or 3 operands, found " ++
      toString n))

def parseRet (scope : List String) (i : Instruction) (rest : List Char) :
    Except ParseError Instruction := do
  let (typeText, args) ← TypeToken.take rest
  if String.ofList typeText = TypeToken.void then
    let suffixes ← match args with
      | [] => pure []
      | ',' :: suffixes => splitOperands suffixes
      | _ => throw (.unexpected ("`" ++ String.ofList args ++ "` after ret void"))
    let (i, extra) ← takeSuffixes { i with type := some TypeToken.void } suffixes
    expectNoMore "ret void" extra
    return i
  else expectOperands 1 (← parseShared scope i rest)

/-- The type to make room for, and the number of elements behind a comma. -/
def parseAlloca (scope : List String) (i : Instruction) (rest : List Char) :
    Except ParseError Instruction := do
  let (typeText, args) ← TypeToken.take rest
  let i := { i with type := some (String.ofList typeText) }
  match args with
  | [] => return i
  | ',' :: counts => parseTyped scope i counts
  | _ => throw (.unexpected ("`" ++ String.ofList args ++ "` after alloca type"))

def isWrapFlag (word : List Char) : Bool :=
  ["nsw".toList, "nuw".toList, "exact".toList].contains word

/-- The wrap flags at the start and the text behind them. -/
def takeFlags (s : List Char) : List String × List Char :=
  if _h : isWrapFlag (nextToken s).1 then
    let (flags, rest) := takeFlags (nextToken s).2
    (String.ofList (nextToken s).1 :: flags, rest)
  else ([], s)
termination_by s.length
decreasing_by
  have hle := length_nextToken_le s
  have hpos : 0 < (nextToken s).1.length := by
    refine List.length_pos_iff.2 fun hnil => ?_
    rw [hnil] at _h
    exact absurd _h (by decide)
  omega

def parseBinary (scope : List String) (i : Instruction) (rest : List Char) :
    Except ParseError Instruction := do
  let (flags, rest) := takeFlags rest
  expectOperands 2 (← parseShared scope { i with flags } rest)

/-- `type value to type`; the last ` to ` separates. -/
def parseCast (scope : List String) (i : Instruction) (rest : List Char) :
    Except ParseError Instruction := do
  let (typeText, args) ← TypeToken.take rest
  let type := String.ofList typeText
  let (i, args) ← takeSuffixes { i with type := some type } (← splitOperands args)
  match args with
  | [conversion] =>
    match splitAtLast? " to ".toList conversion with
    | none =>
      throw (.missingOperand ("`" ++ i.opcode.keyword ++ "` needs a destination type"))
    | some (value, destination) =>
      let value ← Value.parse scope value type
      return { i with operands := [value], castType := some (String.ofList (trim destination)) }
  | _ => throw (.unexpected ("`" ++ i.opcode.keyword ++ "` takes one operand"))

/-- What stands behind the opcode. -/
def parseRest (scope : List String) (opcode : Opcode) (rest : List Char) :
    Except ParseError Instruction :=
  let i : Instruction := { opcode }
  match opcode with
  | .icmp => parseCompare scope i rest 2
  | .brIcmp => parseCompare scope i rest 4
  | .load => parseLoad scope i rest
  | .store => do expectOperands 2 (← parseTyped scope i rest)
  | .getElementPtr => parseGetElementPtr scope i rest
  | .phi => parsePhi scope i rest
  | .call => parseCall scope i rest
  | .br => parseBr scope i rest
  | .ret => parseRet scope i rest
  | .alloca => parseAlloca scope i rest
  | .unreachable =>
    if rest.isEmpty then .ok i
    else .error (.unexpected ("`" ++ String.ofList rest ++ "` after unreachable"))
  | .copy => do expectOperands 1 (← parseShared scope i rest)
  | .binary _ => parseBinary scope i rest
  | .cast _ => parseCast scope i rest

/-- The result that a line starting with a percent sign names, and the text behind the equals
sign. -/
def splitResult (code : List Char) : Except ParseError (Option String × List Char) :=
  if code.head? = some '%' then
    match splitAt? '=' code with
    | none => .error (.unexpected ("`" ++ String.ofList code ++ "`"))
    | some (front, rest) =>
      let name := (trim front).dropWhile (· == '%')
      if isIdentifier name then .ok (some (String.ofList name), trim rest)
      else .error (.unknownArgument (String.ofList (trim front)))
  else .ok (none, code)

/-- Read the code of an instruction line, given without blanks at its ends. -/
def parse (scope : List String) (code : List Char) : Except ParseError Instruction := do
  let (result, rest) ← splitResult code
  let (word, rest) := nextToken rest
  let tail := word == "tail".toList
  let (word, rest) := if tail then nextToken rest else (word, rest)
  match Opcode.ofKeyword? (String.ofList word) with
  | none => throw (.unsupportedOpcode (String.ofList word))
  | some opcode => return { ← parseRest scope opcode rest with result, tail }

end SsaIr.Instruction
