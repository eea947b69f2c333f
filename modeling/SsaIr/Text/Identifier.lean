import SsaIr.Text.Blank

/-!
# Identifiers

Names of values, functions, globals and blocks are nonempty runs of ASCII letters and digits and
the characters `.`, `_`, `$` and `-`. A sigil in front tells what kind of name it is.
-/

namespace SsaIr.Text

def isIdentifierChar (c : Char) : Bool :=
  c.isAlphanum || c == '.' || c == '_' || c == '$' || c == '-'

def isIdentifier (s : List Char) : Bool := !s.isEmpty && s.all isIdentifierChar

/-- The identifier behind the given sigil. -/
def sigilName? (sigil : Char) : List Char → Option String
  | [] => none
  | c :: name => if c = sigil ∧ isIdentifier name then some (String.ofList name) else none

/-- Whether a text is a nonempty run of ASCII digits. -/
def isNumeric (s : List Char) : Bool := !s.isEmpty && s.all Char.isDigit

end SsaIr.Text
