import SsaIr.Block
import SsaIr.Error

/-!
# Functions

A function has parameters, header flags and blocks. Instructions are found by position, blocks by
label; where labels repeat, the first block with a label answers to it, except in the label table,
where the last one does.
-/

namespace SsaIr

inductive ParameterAttribute where
  | noCapture
  deriving DecidableEq, Inhabited

namespace ParameterAttribute

def keyword : ParameterAttribute → String
  | noCapture => "nocapture"

def ofKeyword? (word : String) : Option ParameterAttribute :=
  [noCapture].find? (·.keyword = word)

end ParameterAttribute

/-- A parameter; only a declaration may leave it unnamed. -/
structure Parameter where
  name : Option String := none
  type : String
  attributes : List ParameterAttribute := []
  deriving DecidableEq, Inhabited

structure Function where
  name : String
  returnType : String
  parameters : List Parameter := []
  blocks : List Block := []
  isDeclaration : Bool := false
  /-- Whether the header says `nounwind`. -/
  doesNotThrow : Bool := false
  readonly : Bool := false
  isVariadic : Bool := false
  /-- All other words behind the parameters, as written. -/
  modifiers : List String := []
  /-- The comment on the header line, with the blanks before it. -/
  comment : Option String := none
  deriving DecidableEq, Inhabited

namespace Function

/-- The names of the parameters that have one, in order. -/
def parameterNames (f : Function) : List String := f.parameters.filterMap Parameter.name

def isParameter (f : Function) (name : String) : Bool := name ∈ f.parameterNames

theorem isParameter_iff {f : Function} {name : String} :
    f.isParameter name = true ↔ ∃ p ∈ f.parameters, p.name = some name := by
  simp [isParameter, parameterNames]

def labels (f : Function) : List String := f.blocks.map Block.label

def addBlock (f : Function) (b : Block) : Function := { f with blocks := f.blocks ++ [b] }

@[simp] theorem labels_addBlock (f : Function) (b : Block) :
    (f.addBlock b).labels = f.labels ++ [b.label] := by
  simp [labels, addBlock]

def block? (f : Function) (label : String) : Option Block := f.blocks.find? (·.label = label)

/-- The index of the first block with the label. -/
def blockIndex? (f : Function) (label : String) : Option Nat :=
  f.blocks.findIdx? (·.label = label)

theorem blockIndex?_eq_none_iff {f : Function} {label : String} :
    f.blockIndex? label = none ↔ label ∉ f.labels := by
  simp [blockIndex?, labels]

/-- The index of the block a label refers to. -/
def resolve (f : Function) (label : String) : Except Error Nat :=
  match f.blockIndex? label with
  | some index => .ok index
  | none => .error (.unresolvedLabel f.name label)

/-- Each label with the index of its block, in order. -/
def labelTable (f : Function) : List (String × Nat) := f.labels.zipIdx

/-- The index of the last block with the label. -/
def lastBlockIndex? (f : Function) (label : String) : Option Nat :=
  (f.labelTable.reverse.find? (·.1 = label)).map Prod.snd

def instruction? (f : Function) (p : Position) : Option Instruction :=
  f.blocks[p.block]?.bind (·.instructions[p.index]?)

/-- All instructions with their positions, in program order. -/
def located (f : Function) : List (Position × Instruction) :=
  f.blocks.zipIdx.flatMap fun (b, block) =>
    b.instructions.zipIdx.map fun (i, index) => (⟨block, index⟩, i)

/-- All instructions in program order. -/
def instructions (f : Function) : List Instruction := f.blocks.flatMap Block.instructions

/-- All positions of instructions in program order. -/
def positions (f : Function) : List Position := f.located.map Prod.fst

/-- The position of the first instruction that defines the name. -/
def definition? (f : Function) (name : String) : Option Position :=
  f.blocks.zipIdx.findSome? fun (b, block) => (b.index? name).map fun index => ⟨block, index⟩

end Function

end SsaIr
