import SsaIr.Value

/-!
# Global variables
-/

namespace SsaIr

/-- How a global symbol is visible to other modules. -/
inductive Linkage where
  /-- The default, which is not spelled out. -/
  | external
  | private_
  | internal
  | linkOnce
  | weak
  | common
  deriving DecidableEq, Inhabited

namespace Linkage

/-- The kinds of linkage that have a word. -/
def spelled : List Linkage := [private_, internal, linkOnce, weak, common]

def keyword : Linkage → String
  | external => ""
  | private_ => "private"
  | internal => "internal"
  | linkOnce => "linkonce"
  | weak => "weak"
  | common => "common"

def ofKeyword? (word : String) : Option Linkage := spelled.find? (·.keyword = word)

end Linkage

structure Global where
  name : String
  /-- The type of the value, not of the pointer to it. -/
  type : String
  initializer : Option Value := none
  linkage : Linkage := .external
  alignment : Option UInt32 := none
  isConstant : Bool := false
  unnamedAddr : Bool := false
  /-- Whether the variable is defined elsewhere and has no initializer here. -/
  isDeclaration : Bool := false
  /-- The comment on the line, with the blanks before it. -/
  comment : Option String := none
  deriving DecidableEq, Inhabited

/-- The variable as written on a line, without its comment. -/
def Global.text (g : Global) : String :=
  "@" ++ g.name ++ " =" ++
    (if g.isDeclaration then " external" else "") ++
    (if g.linkage = .external then "" else " " ++ g.linkage.keyword) ++
    (if g.unnamedAddr then " unnamed_addr" else "") ++
    (if g.isConstant then " constant " else " global ") ++ g.type ++
    (match g.initializer with
      | some v => " " ++ v.text
      | none => "") ++
    (match g.alignment with
      | some n => ", align " ++ toString n.toNat
      | none => "")

end SsaIr
