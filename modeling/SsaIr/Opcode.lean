/-!
# Opcodes

The closed set of operations, the integer predicates of comparisons, and the word each is
written as. Reading a word goes through the list of all operations, so a word is read back as
the operation that is written so and as no other.
-/

namespace SsaIr

/-- Operations on two operands of one type. -/
inductive BinaryOp where
  | add | sub | mul
  | udiv | sdiv | urem | srem
  | shl | lshr | ashr | and | or | xor
  | fadd | fsub | fmul | fdiv | frem
  deriving DecidableEq, Inhabited

namespace BinaryOp

def all : List BinaryOp :=
  [add, sub, mul, udiv, sdiv, urem, srem, shl, lshr, ashr, and, or, xor, fadd, fsub, fmul, fdiv,
    frem]

def keyword : BinaryOp → String
  | add => "add"
  | sub => "sub"
  | mul => "mul"
  | udiv => "udiv"
  | sdiv => "sdiv"
  | urem => "urem"
  | srem => "srem"
  | shl => "shl"
  | lshr => "lshr"
  | ashr => "ashr"
  | and => "and"
  | or => "or"
  | xor => "xor"
  | fadd => "fadd"
  | fsub => "fsub"
  | fmul => "fmul"
  | fdiv => "fdiv"
  | frem => "frem"

def ofKeyword? (word : String) : Option BinaryOp := all.find? (·.keyword = word)

theorem ofKeyword?_keyword (op : BinaryOp) : ofKeyword? op.keyword = some op := by
  cases op <;> rfl

theorem keyword_of_ofKeyword? {word : String} {op : BinaryOp} (h : ofKeyword? word = some op) :
    op.keyword = word := by simpa using List.find?_some h

end BinaryOp

/-- Conversions of one operand to another type. -/
inductive CastOp where
  | trunc | zext | sext | bitcast | ptrtoint | inttoptr
  deriving DecidableEq, Inhabited

namespace CastOp

def all : List CastOp := [trunc, zext, sext, bitcast, ptrtoint, inttoptr]

def keyword : CastOp → String
  | trunc => "trunc"
  | zext => "zext"
  | sext => "sext"
  | bitcast => "bitcast"
  | ptrtoint => "ptrtoint"
  | inttoptr => "inttoptr"

def ofKeyword? (word : String) : Option CastOp := all.find? (·.keyword = word)

theorem ofKeyword?_keyword (op : CastOp) : ofKeyword? op.keyword = some op := by
  cases op <;> rfl

theorem keyword_of_ofKeyword? {word : String} {op : CastOp} (h : ofKeyword? word = some op) :
    op.keyword = word := by simpa using List.find?_some h

end CastOp

/-- Integer comparisons: equality, then unsigned, then signed order. -/
inductive Predicate where
  | eq | ne
  | ugt | uge | ult | ule
  | sgt | sge | slt | sle
  deriving DecidableEq, Inhabited

namespace Predicate

def all : List Predicate := [eq, ne, ugt, uge, ult, ule, sgt, sge, slt, sle]

def keyword : Predicate → String
  | eq => "eq"
  | ne => "ne"
  | ugt => "ugt"
  | uge => "uge"
  | ult => "ult"
  | ule => "ule"
  | sgt => "sgt"
  | sge => "sge"
  | slt => "slt"
  | sle => "sle"

def ofKeyword? (word : String) : Option Predicate := all.find? (·.keyword = word)

theorem ofKeyword?_keyword (p : Predicate) : ofKeyword? p.keyword = some p := by
  cases p <;> rfl

theorem keyword_of_ofKeyword? {word : String} {p : Predicate} (h : ofKeyword? word = some p) :
    p.keyword = word := by simpa using List.find?_some h

end Predicate

/-- What an instruction does. -/
inductive Opcode where
  | load
  | store
  | icmp
  | phi
  | call
  | getElementPtr
  | br
  /-- Compare two integers and branch on the outcome. -/
  | brIcmp
  | ret
  | alloca
  | unreachable
  /-- Give the value of the operand a second name. -/
  | copy
  | binary (op : BinaryOp)
  | cast (op : CastOp)
  deriving DecidableEq, Inhabited

namespace Opcode

def all : List Opcode :=
  [load, store, icmp, phi, call, getElementPtr, br, brIcmp, ret, alloca, unreachable, copy] ++
    BinaryOp.all.map binary ++ CastOp.all.map cast

def keyword : Opcode → String
  | load => "load"
  | store => "store"
  | icmp => "icmp"
  | phi => "phi"
  | call => "call"
  | getElementPtr => "getelementptr"
  | br => "br"
  | brIcmp => "bricmp"
  | ret => "ret"
  | alloca => "alloca"
  | unreachable => "unreachable"
  | copy => "mov"
  | binary op => op.keyword
  | cast op => op.keyword

def ofKeyword? (word : String) : Option Opcode := all.find? (·.keyword = word)

theorem ofKeyword?_keyword (op : Opcode) : ofKeyword? op.keyword = some op := by
  cases op with
  | binary op => cases op <;> rfl
  | cast op => cases op <;> rfl
  | _ => rfl

theorem keyword_of_ofKeyword? {word : String} {op : Opcode} (h : ofKeyword? word = some op) :
    op.keyword = word := by simpa using List.find?_some h

/-- Operations that end a block and never run into the next one. -/
def isTerminator : Opcode → Bool
  | br | brIcmp | ret | unreachable => true
  | _ => false

/-- Terminators that go on to the blocks they name. -/
def isBranch : Opcode → Bool
  | br | brIcmp => true
  | _ => false

theorem isTerminator_of_isBranch {op : Opcode} (h : op.isBranch = true) :
    op.isTerminator = true := by
  cases op with
  | br => rfl
  | brIcmp => rfl
  | _ => cases h

end Opcode

end SsaIr
