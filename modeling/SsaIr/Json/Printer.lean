import SsaIr.Json

/-!
# Writing JSON

The indented form of JSON: two blanks for each level, one item or field on a line, and brackets
without content closed at once. Only quotes, backslashes and control characters are escaped.
-/

namespace SsaIr.Json

/-- The text of a character between quotes. -/
def escapeChar (c : Char) : List Char :=
  if c = '"' then ['\\', '"']
  else if c = '\\' then ['\\', '\\']
  else if c = '\n' then ['\\', 'n']
  else if c = '\r' then ['\\', 'r']
  else if c = '\t' then ['\\', 't']
  else if c.toNat = 8 then ['\\', 'b']
  else if c.toNat = 12 then ['\\', 'f']
  else if c.toNat < 32 then
    ['\\', 'u', '0', '0', Nat.digitChar (c.toNat / 16), Nat.digitChar (c.toNat % 16)]
  else [c]

def quoted (s : String) : String := String.ofList ('"' :: (s.toList.flatMap escapeChar ++ ['"']))

/-- A new line with the blanks that its level asks for. -/
def lineBreak (level : Nat) : String := String.ofList ('\n' :: List.replicate (2 * level) ' ')

def numberText (mantissa : Int) (scale : Nat) : String :=
  toString mantissa ++ if scale = 0 then "" else "e-" ++ toString scale

/-- Items of a level between brackets, each on a line of its own. -/
def enclosed (opening closing : String) (level : Nat) (items : List String) : String :=
  if items.isEmpty then opening ++ closing
  else
    opening ++ ",".intercalate (items.map (lineBreak (level + 1) ++ ·)) ++ lineBreak level ++
      closing

mutual

/-- The indented text of a value that stands at a level. -/
def pretty (level : Nat) : Json → String
  | null => "null"
  | bool b => if b then "true" else "false"
  | number mantissa scale => numberText mantissa scale
  | string s => quoted s
  | array items => enclosed "[" "]" level (prettyItems (level + 1) items)
  | object fields => enclosed "\x7b" "\x7d" level (prettyFields (level + 1) fields)

def prettyItems (level : Nat) : List Json → List String
  | [] => []
  | j :: js => pretty level j :: prettyItems level js

def prettyFields (level : Nat) : List (String × Json) → List String
  | [] => []
  | (name, j) :: fields => (quoted name ++ ": " ++ pretty level j) :: prettyFields level fields

end

end SsaIr.Json
