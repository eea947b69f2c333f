import SsaIr.Function
import SsaIr.Instruction.Parser
import SsaIr.Text.Line

/-!
# Reading functions

A header is `type @name(parameters) words`, with a brace at its end if a body follows. A body is
read line by line: each line opens a block, is an instruction, closes the body, or says nothing.
-/

namespace SsaIr

open Text

namespace Parameter

/-- Add one more word of a parameter: an attribute, or its name as the last word. -/
def addWord (p : Parameter) (word : List Char) : Except ParseError Parameter :=
  if p.name.isSome then
    .error (.malformedHeader ("unexpected `" ++ String.ofList word ++ "` after parameter name"))
  else if word.head? = some '%' then
    match sigilName? '%' word with
    | some name => .ok { p with name := some name }
    | none => .error (.unknownArgument (String.ofList word))
  else
    match ParameterAttribute.ofKeyword? (String.ofList word) with
    | some a => .ok { p with attributes := p.attributes ++ [a] }
    | none => .error (.unsupportedAttribute (String.ofList word))

/-- Read `type attributes %name`. -/
def parse (requireName : Bool) (text : List Char) : Except ParseError Parameter := do
  let (type, rest) ← TypeToken.take text
  let p ← (words rest).foldlM addWord { type := String.ofList type }
  if requireName ∧ p.name = none then
    throw (.malformedHeader ("parameter `" ++ String.ofList (trim text) ++ "` has no name"))
  return p

end Parameter

namespace Function

/-- Add one more part of the parameter list; nothing but an ellipsis may follow an ellipsis. -/
def addParameter (malformed : String → ParseError) (f : Function) (part : List Char) :
    Except ParseError Function :=
  if part = "...".toList then .ok { f with isVariadic := true }
  else if f.isVariadic then .error (malformed "parameter after `...`")
  else (Parameter.parse (!f.isDeclaration) part).map fun p =>
    { f with parameters := f.parameters ++ [p] }

/-- Add one more word behind the parameters. -/
def addModifier (f : Function) (word : List Char) : Function :=
  if word = "nounwind".toList then { f with doesNotThrow := true }
  else if word = "readonly".toList then { f with readonly := true }
  else { f with modifiers := f.modifiers ++ [String.ofList word] }

/-- Read a header behind its keyword. -/
def parseHeader (isDeclaration : Bool) (text : List Char) : Except ParseError Function := do
  let malformed (reason : String) : ParseError :=
    .malformedHeader (reason ++ " in `" ++ String.ofList (trim text) ++ "`")
  match splitAtTop? '@' {} text with
  | none => throw (malformed "missing function name")
  | some (front, after) =>
    let returnType := trim front
    if returnType.isEmpty then throw (malformed "missing return type")
    match splitAt? '(' after with
    | none => throw (malformed "missing parameter list")
    | some (front, parameters) =>
      let name := trim front
      if !isIdentifier name then throw (malformed "bad function name")
      match takeBracketed? {} ('(' :: parameters) with
      | none => throw (.unbalancedBrackets (String.ofList after))
      | some (bracketed, behind) =>
        let f : Function :=
          { name := String.ofList name, returnType := String.ofList returnType, isDeclaration }
        let f ← (← splitOperands bracketed.tail.dropLast).foldlM (addParameter malformed) f
        let behind := trim behind
        let modifiers ← match isDeclaration, before? ['\x7b'] behind with
          | true, none => pure behind
          | true, some _ => throw (malformed "declaration with a body")
          | false, some modifiers => pure modifiers
          | false, none => throw (malformed "expected `\x7b` at end of definition")
        return (words modifiers).foldl addModifier f

/-- What a line inside a function body says. -/
inductive BodyLine where
  /-- Nothing: the line is blank or a comment. -/
  | blank
  | close
  | label (name : List Char) (comment : Option String)
  | instruction (code : List Char) (comment : Option String)

/-- The number that a comment `; <label>:N` names, and the further comment behind it. -/
def labelComment? (comment : List Char) : Option (List Char × Option (List Char)) := do
  let rest ← after? [';'] comment
  let rest ← after? "<label>:".toList (trimStart rest)
  let number := rest.takeWhile Char.isDigit
  let behind := rest.dropWhile Char.isDigit
  let further := trimStart behind
  if number.isEmpty then none
  else if further.isEmpty then some (number, none)
  else if further.head? = some ';' ∧ '\n' ∉ further then some (number, some behind)
  else none

def BodyLine.ofLine (line : List Char) : BodyLine :=
  let (code, comment) := splitComment line
  let code := trim code
  if code.isEmpty then
    match labelComment? (trim (comment.getD [])) with
    | some (number, further) => .label number (further.map String.ofList)
    | none => .blank
  else if code = ['\x7d'] then .close
  else
    match before? [':'] code with
    | some name => .label (trim name) (comment.map String.ofList)
    | none => .instruction code (comment.map String.ofList)

/-- Open a block behind the others. -/
def openBlock (f : Function) (name : List Char) (comment : Option String) :
    Except ParseError Function :=
  let label := String.ofList name
  if !isIdentifier name then .error (.unknownArgument (label ++ ":"))
  else if (f.blockIndex? label).isSome then .error (.duplicateLabel label)
  else .ok (f.addBlock { label, comment })

/-- Add an instruction to the last block; in front of any block it opens one labelled `0`. -/
def addInstruction (f : Function) (i : Instruction) : Function :=
  match f.blocks.getLast? with
  | some b => { f with blocks := f.blocks.dropLast ++ [b.add i] }
  | none => { f with blocks := [{ label := "0", instructions := [i] }] }

/-- The function with one more line of its body. -/
def addBodyLine (f : Function) : BodyLine → Except ParseError Function
  | .blank | .close => .ok f
  | .label name comment => f.openBlock name comment
  | .instruction code comment =>
    (Instruction.parse f.parameterNames code).map fun i => f.addInstruction { i with comment }

end Function

end SsaIr
