import SsaIr.Instruction
import SsaIr.Text.Identifier

/-!
# Blocks

A block is a label with a list of instructions. Its terminator is the last instruction that ends
a block: copies for phis of other blocks may stand behind it, and they run before it.
-/

namespace SsaIr

structure Block where
  label : String
  instructions : List Instruction := []
  /-- The comment on the label line, with the blanks before it. -/
  comment : Option String := none
  deriving DecidableEq, Inhabited

namespace Block

def add (b : Block) (i : Instruction) : Block := { b with instructions := b.instructions ++ [i] }

def size (b : Block) : Nat := b.instructions.length

@[simp] theorem size_add (b : Block) (i : Instruction) : (b.add i).size = b.size + 1 := by
  simp [add, size]

/-- The index of the first instruction that defines the name. -/
def index? (b : Block) (name : String) : Option Nat :=
  b.instructions.findIdx? (·.result = some name)

/-- The first instruction that defines the name. -/
def instruction? (b : Block) (name : String) : Option Instruction :=
  b.instructions.find? (·.result = some name)

/-- The names of the results, in order. -/
def results (b : Block) : List String := b.instructions.filterMap Instruction.result

/-- The index of the last terminator. -/
def terminatorIndex? (b : Block) : Option Nat :=
  ((b.instructions.zipIdx.filter (·.1.isTerminator)).map Prod.snd).getLast?

/-- The last terminator. -/
def terminator? (b : Block) : Option Instruction :=
  b.terminatorIndex?.bind (b.instructions[·]?)

/-- Whether the label is a number. -/
def hasNumericLabel (b : Block) : Bool := Text.isNumeric b.label.toList

/-- The indices of the instructions in the order they run: what stands behind the terminator
comes before it. -/
def executionOrder (b : Block) : List Nat :=
  match b.terminatorIndex? with
  | some t => List.range t ++ List.range' (t + 1) (b.size - (t + 1)) ++ [t]
  | none => List.range b.size

end Block

end SsaIr
