import SsaIr.Global
import SsaIr.Value.Parser

/-!
# Reading global variables

A global variable is `@name = words kind type value, align N`, where the kind is `global` or
`constant`, and one defined elsewhere has no value.
-/

namespace SsaIr.Global

open Text

/-- Add one more suffix; alignment is the only one there is. -/
def addSuffix (g : Global) (suffix : List Char) : Except ParseError Global :=
  match after? "align ".toList suffix with
  | none => .error (.malformedGlobal ("unexpected `" ++ String.ofList suffix ++ "`"))
  | some numeral =>
    match uint32? (trim numeral) with
    | some n => .ok { g with alignment := some n }
    | none => .error (.invalidInteger (String.ofList (trim numeral)))

/-- Take in a word in front of the kind. -/
def addKeyword (g : Global) (word : String) : Except ParseError Global :=
  if word = "external" then .ok { g with isDeclaration := true }
  else if word = "unnamed_addr" then .ok { g with unnamedAddr := true }
  else
    match Linkage.ofKeyword? word with
    | some linkage => .ok { g with linkage }
    | none =>
      .error (.malformedGlobal ("expected `global` or `constant`, found `" ++ word ++ "`"))

theorem addKeyword_empty (g : Global) :
    g.addKeyword "" =
      .error (.malformedGlobal ("expected `global` or `constant`, found `" ++ "" ++ "`")) := rfl

/-- Read the words up to the kind, and give the text behind it. -/
def readKeywords (g : Global) (text : List Char) : Except ParseError (Global × List Char) :=
  let word := String.ofList (nextToken text).1
  if word = "global" ∨ word = "constant" then
    .ok ({ g with isConstant := word = "constant" }, (nextToken text).2)
  else
    match _h : g.addKeyword word with
    | .error e => .error e
    | .ok g => readKeywords g (nextToken text).2
termination_by text.length
decreasing_by
  have hle := length_nextToken_le text
  have hpos : 0 < (nextToken text).1.length := by
    refine List.length_pos_iff.2 fun hnil => ?_
    have hword : word = "" := by simp [word, hnil]
    rw [hword] at _h
    exact absurd ((addKeyword_empty _).symm.trans _h) (by simp)
  omega

/-- Read the code of a line that defines or declares a variable. -/
def parse (code : List Char) : Except ParseError Global := do
  match splitAt? '=' code with
  | none => throw (.malformedGlobal ("missing `=` in `" ++ String.ofList code ++ "`"))
  | some (front, rest) =>
    match sigilName? '@' (trim front) with
    | none => throw (.malformedGlobal ("bad name `" ++ String.ofList (trim front) ++ "`"))
    | some name =>
      let parts ← splitOperands rest
      let g ← parts.tail.foldlM addSuffix { name, type := "" }
      let (g, rest) ← readKeywords g (parts.head?.getD [])
      if g.isDeclaration then
        if rest.isEmpty then throw (.malformedGlobal "external global without a type")
        return { g with type := String.ofList rest }
      else
        let value ← Value.parseTyped [] rest
        return { g with type := value.type, initializer := some value }

end SsaIr.Global
