import SsaIr.Function

/-!
# Building functions

A builder holds the function under construction and the block that instructions are added to. It
names results by counting, starting anew with each function. A call that fails leaves function
and insertion point as they were, but a number once taken stays taken.
-/

namespace SsaIr

structure Builder where
  function : Option Function := none
  /-- The index of the block that instructions are added to. -/
  insertionPoint : Option Nat := none
  nextTemp : Nat := 0
  nextLabel : Nat := 0
  deriving DecidableEq, Inhabited

namespace Builder

/-- The name that stands for the function when there is none. -/
def noFunctionName : String := "<builder>"

/-- A fresh name for a result. -/
def newTemp (b : Builder) : Builder × String :=
  ({ b with nextTemp := b.nextTemp + 1 }, toString b.nextTemp)

/-- A fresh label. -/
def newLabel (b : Builder) : Builder × String :=
  ({ b with nextLabel := b.nextLabel + 1 }, "bb" ++ toString b.nextLabel)

/-- Begin a function, and count from zero again. -/
def createFunction (name returnType : String) : Builder :=
  { function := some { name, returnType } }

/-- The function under construction. -/
def current (b : Builder) : Except Error Function :=
  match b.function with
  | some f => .ok f
  | none => .error (.invalid noFunctionName .noCurrentFunction)

/-- Add a parameter, and give the value that refers to it. -/
def addParameter (b : Builder) (name type : String) : Builder × Except Error Value :=
  match b.current with
  | .error e => (b, .error e)
  | .ok f =>
    let f := { f with parameters := f.parameters ++ [{ name := some name, type }] }
    ({ b with function := some f }, .ok (.argument name type))

/-- Add a block, and go on there. -/
def createBlock (b : Builder) (label : String) : Builder × Except Error Unit :=
  match b.current with
  | .error e => (b, .error e)
  | .ok f =>
    if (f.blockIndex? label).isSome then (b, .error (.invalid f.name (.duplicateLabel label)))
    else
      ({ b with function := some (f.addBlock { label }), insertionPoint := some f.blocks.length },
        .ok ())

/-- Go on at the end of an existing block. -/
def positionAtEnd (b : Builder) (label : String) : Builder × Except Error Unit :=
  match b.current.bind (·.resolve label) with
  | .error e => (b, .error e)
  | .ok index => ({ b with insertionPoint := some index }, .ok ())

/-- Add an instruction at the insertion point. -/
def add (b : Builder) (i : Instruction) : Builder × Except Error Unit :=
  match b.current with
  | .error e => (b, .error e)
  | .ok f =>
    match b.insertionPoint.filter (· < f.blocks.length) with
    | none => (b, .error (.invalid f.name .noCurrentBlock))
    | some index =>
      ({ b with function := some { f with blocks := f.blocks.modify index (·.add i) } }, .ok ())

/-- Add an instruction with a fresh result, and give the value of that result. -/
def addNamed (b : Builder) (type : String) (make : (name : String) → Instruction) :
    Builder × Except Error Value :=
  let (b, name) := b.newTemp
  let (b, done) := b.add (make name)
  (b, done.map fun _ => .temp name type)

def binary (b : Builder) (op : BinaryOp) (lhs rhs : Value) (type : String) :
    Builder × Except Error Value :=
  b.addNamed type fun name =>
    { result := some name, opcode := .binary op, type := some type, operands := [lhs, rhs] }

def icmp (b : Builder) (predicate : Predicate) (lhs rhs : Value) : Builder × Except Error Value :=
  b.addNamed "i1" fun name =>
    { result := some name, opcode := .icmp, type := some lhs.type, operands := [lhs, rhs],
      predicate := some predicate }

def load (b : Builder) (pointer : Value) (type : String) : Builder × Except Error Value :=
  b.addNamed type fun name => { result := some name, opcode := .load, operands := [pointer] }

def store (b : Builder) (value pointer : Value) : Builder × Except Error Unit :=
  b.add { opcode := .store, operands := [value, pointer] }

/-- Make room for a value; the result is a pointer to it. -/
def alloca (b : Builder) (type : String) : Builder × Except Error Value :=
  b.addNamed (type ++ "*") fun name =>
    { result := some name, opcode := .alloca, type := some type }

def getElementPtr (b : Builder) (pointer : Value) (indices : List Value) (inbounds : Bool)
    (type : String) : Builder × Except Error Value :=
  b.addNamed type fun name =>
    { result := some name, opcode := .getElementPtr, operands := pointer :: indices, inbounds }

/-- Call a function; a void call has no result and takes no number. -/
def call (b : Builder) (callee : Value) (arguments : List Value) (type : String) :
    Builder × Except Error (Option Value) :=
  let i : Instruction := { opcode := .call, type := some type, operands := arguments ++ [callee] }
  if type = TypeToken.void then
    let (b, done) := b.add i
    (b, done.map fun _ => none)
  else
    let (b, value) := b.addNamed type fun name => { i with result := some name }
    (b, value.map some)

def phi (b : Builder) (type : String) (incoming : List (Value × String)) :
    Builder × Except Error Value :=
  b.addNamed type fun name => { result := some name, opcode := .phi, type := some type, incoming }

def copy (b : Builder) (name : String) (value : Value) : Builder × Except Error Unit :=
  b.add (Instruction.copy name none value)

/-- Return a value, or nothing. -/
def ret (b : Builder) (value : Option Value) : Builder × Except Error Unit :=
  let type := (value.map Value.type).getD TypeToken.void
  b.add { opcode := .ret, type := some type, operands := value.toList }

def branch (b : Builder) (target : String) : Builder × Except Error Unit :=
  b.add (Instruction.branch target)

def condBranch (b : Builder) (condition : Value) (whenTrue whenFalse : String) :
    Builder × Except Error Unit :=
  b.add (Instruction.condBranch condition whenTrue whenFalse)

def compareBranch (b : Builder) (predicate : Predicate) (lhs rhs : Value)
    (whenTrue whenFalse : String) : Builder × Except Error Unit :=
  b.add (Instruction.compareBranch predicate lhs.type lhs rhs whenTrue whenFalse)

/-- Whether the block at the insertion point has a terminator. -/
def hasTerminator (b : Builder) : Bool :=
  match b.function, b.insertionPoint with
  | some f, some index => (f.blocks[index]?.bind Block.terminator?).isSome
  | _, _ => false

/-- Hand out the function under construction, and hold none from then on. -/
def finish (b : Builder) : Builder × Option Function :=
  ({ b with function := none, insertionPoint := none }, b.function)

end Builder

end SsaIr
