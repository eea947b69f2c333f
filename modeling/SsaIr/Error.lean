import SsaIr.Position

/-!
# Errors

What can go wrong while a text is read (`ParseError`), what can be wrong with a function that is
already in memory (`Defect`), and both at their place (`Error`). Errors are causes; their wording
is in the `message` functions alone.
-/

namespace SsaIr

/-- Why a line cannot be read. -/
inductive ParseError where
  | malformedHeader (reason : String)
  | unknownArgument (text : String)
  | unsupportedAttribute (word : String)
  | unbalancedBrackets (text : String)
  | missingOperand (reason : String)
  | unknownPredicate (word : String)
  | invalidInteger (text : String)
  | malformedGlobal (reason : String)
  | unexpected (what : String)
  | duplicateLabel (label : String)
  | unterminatedFunction (name : String)
  | unsupportedOpcode (word : String)
  deriving DecidableEq, Inhabited

def ParseError.message : ParseError → String
  | malformedHeader reason => "malformed function header: " ++ reason
  | unknownArgument text => "unknown argument syntax `" ++ text ++ "`"
  | unsupportedAttribute word => "unsupported attribute `" ++ word ++ "`"
  | unbalancedBrackets text => "unbalanced brackets in `" ++ text ++ "`"
  | missingOperand reason => "missing operand: " ++ reason
  | unknownPredicate word => "unknown comparison predicate `" ++ word ++ "`"
  | invalidInteger text => "invalid integer `" ++ text ++ "`"
  | malformedGlobal reason => "malformed global: " ++ reason
  | unexpected what => "unexpected " ++ what
  | duplicateLabel label => "duplicate block label %" ++ label
  | unterminatedFunction name => "end of input inside function @" ++ name
  | unsupportedOpcode word => "unsupported opcode `" ++ word ++ "`"

/-- What is wrong with a function, or with a request made of it. -/
inductive Defect where
  | declarationWithBody
  | noBlocks
  | duplicateLabel (label : String)
  /-- The names that stand for more than one parameter or result. -/
  | redefined (name : String) (others : List String)
  | undefinedUse (name : String) (position : Position)
  | noInstruction (position : Position)
  | noBlock (index : Nat)
  | phiWithoutResult (label : String)
  | noCurrentFunction
  | noCurrentBlock
  deriving DecidableEq, Inhabited

def Defect.message : Defect → String
  | declarationWithBody => "declaration has a body"
  | noBlocks => "defined function has no blocks"
  | duplicateLabel label => "duplicate block label %" ++ label
  | redefined name [] => "%" ++ name ++ " is defined more than once"
  | redefined _ (_ :: _) => "several names are defined more than once"
  | undefinedUse name p => "%" ++ name ++ " used at " ++ p.text ++ " has no definition"
  | noInstruction p => "no instruction at position " ++ p.text
  | noBlock index => "no block at index " ++ toString index
  | phiWithoutResult label => "phi without a result in block %" ++ label
  | noCurrentFunction => "no current function"
  | noCurrentBlock => "no current block"

/-- A line of a named text, counted from one. -/
structure Location where
  file : String
  line : Nat
  deriving DecidableEq, Inhabited

def Location.text (l : Location) : String := l.file ++ ":" ++ toString l.line

/-- A failure of one of the operations on modules and functions. -/
inductive Error where
  | parse (location : Location) (text : String) (cause : ParseError)
  | unresolvedLabel (function label : String)
  | invalid (function : String) (defect : Defect)
  deriving DecidableEq, Inhabited

namespace Error

def message : Error → String
  | parse location _ (.unsupportedOpcode word) =>
    "Unsupported opcode `" ++ word ++ "` at " ++ location.text
  | parse location text cause =>
    "Parse error at " ++ location.text ++ ": " ++ cause.message ++ " (in `" ++ text ++ "`)"
  | unresolvedLabel function label =>
    "Unresolved reference in function @" ++ function ++ ": no block labelled %" ++ label
  | invalid function defect => "Invalid function @" ++ function ++ ": " ++ defect.message

/-- The line an error of reading points at. -/
def line? : Error → Option Nat
  | parse location _ _ => some location.line
  | _ => none

end Error

end SsaIr
