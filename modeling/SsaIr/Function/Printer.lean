import SsaIr.Function
import SsaIr.Instruction.Printer

/-!
# Writing functions

A function is written as lines. A block with a numeric label can be opened by a comment line
`; <label>:N` or by a label line `N:`; all other blocks are opened by label lines.
-/

namespace SsaIr

/-- How blocks with numeric labels are opened. -/
inductive LabelStyle where
  /-- By a comment `; <label>:N`. -/
  | comment
  /-- By a label line `N:`. -/
  | line
  deriving DecidableEq, Inhabited

def Parameter.text (p : Parameter) : String :=
  p.type ++ String.join (p.attributes.map fun a => " " ++ a.keyword) ++
    match p.name with
    | some name => " %" ++ name
    | none => ""

namespace Function

/-- The header line, without comment and without the brace that opens a body. -/
def header (f : Function) : String :=
  let keyword := if f.isDeclaration then "declare" else "define"
  let parameters := f.parameters.map Parameter.text ++ if f.isVariadic then ["..."] else []
  keyword ++ " " ++ f.returnType ++ " @" ++ f.name ++ "(" ++ ", ".intercalate parameters ++ ")" ++
    (if f.doesNotThrow then " nounwind" else "") ++
    (if f.readonly then " readonly" else "") ++
    String.join (f.modifiers.map (" " ++ ·))

end Function

/-- The line that opens a block. -/
def Block.labelLine (style : LabelStyle) (b : Block) : String :=
  (if b.hasNumericLabel ∧ style = .comment then "; <label>:" ++ b.label else b.label ++ ":") ++
    b.comment.getD ""

/-- The line of an instruction. -/
def Instruction.line (i : Instruction) : String := "  " ++ i.text ++ i.comment.getD ""

/-- The line that opens a block and the lines of its instructions. -/
def Block.lines (style : LabelStyle) (b : Block) : List String :=
  b.labelLine style :: b.instructions.map Instruction.line

namespace Function

/-- The one line of a declaration. -/
def declarationLine (f : Function) : String := f.header ++ f.comment.getD ""

/-- The lines of a definition, with an empty line between blocks. -/
def definitionLines (style : LabelStyle) (f : Function) : List String :=
  (f.header ++ " \x7b" ++ f.comment.getD "") ::
    ([""].intercalate (f.blocks.map (Block.lines style)) ++ ["\x7d"])

end Function

end SsaIr
