import SsaIr.Function.Printer
import SsaIr.Module

/-!
# Writing modules

The lines of a module: its identifier, target lines, declarations, global variables, definitions
and metadata, with empty lines between these groups.
-/

namespace SsaIr.Module

/-- Lines with an empty line behind them, if there are any. -/
def withGap (lines : List String) : List String := if lines.isEmpty then [] else lines ++ [""]

/-- Lines with an empty line in front of them, if there are any. -/
def afterGap (lines : List String) : List String := if lines.isEmpty then [] else "" :: lines

def lines (style : LabelStyle) (m : Module) : List String :=
  m.moduleId.toList ++
    withGap m.targetInfo ++
    withGap (m.declarations.map Function.declarationLine) ++
    withGap (m.globals.map fun g => g.text ++ g.comment.getD "") ++
    [""].intercalate (m.definitions.map (Function.definitionLines style)) ++
    afterGap m.metadata

/-- The text of a module; reading it gives the module back. -/
def text (style : LabelStyle) (m : Module) : String :=
  String.join ((m.lines style).map (· ++ "\n"))

end SsaIr.Module
