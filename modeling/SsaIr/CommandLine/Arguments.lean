import SsaIr.Text.Blank
import SsaIr.Text.Decimal

/-!
# Arguments

The grammar of the command line. A command is `name [options] input`, with options before or
behind the input. Long options take a value behind an equals sign or as the next argument; short
ones stand together behind one dash, and the last of them takes the rest, with or without an
equals sign, or the next argument as its value. A next argument with a dash in front is no value
unless it is the dash alone. Behind `--` there are no options. No option may be repeated.
-/

namespace SsaIr.CommandLine

open Text

/-- An option: its long name, its letter if it has one, and whether it takes a value. -/
structure OptionSpec where
  long : String
  short : Option Char := none
  takesValue : Bool := false
  deriving DecidableEq, Inhabited

/-- An option as given, with its value if it takes one. -/
structure Setting where
  long : String
  value : Option String := none
  deriving DecidableEq, Inhabited

/-- Arguments sorted into options and the others. -/
structure Sorted where
  settings : List Setting := []
  positionals : List String := []
  deriving DecidableEq, Inhabited

/-- Whether the option has been given. -/
def Sorted.has (s : Sorted) (long : String) : Bool := s.settings.any (·.long = long)

/-- The value that the option has been given. -/
def Sorted.value? (s : Sorted) (long : String) : Option String :=
  (s.settings.find? (·.long = long)).bind Setting.value

/-- Add an option that has not been given yet. -/
def Sorted.set? (s : Sorted) (spec : OptionSpec) (value : Option String) : Option Sorted :=
  if s.has spec.long then none
  else some { s with settings := s.settings ++ [{ long := spec.long, value }] }

/-- Whether an argument can be the value of the option in front of it. -/
def canBeValue (argument : String) : Bool :=
  argument = "-" || argument.toList.head? ≠ some '-'

/-- What a run of short options leaves to do: nothing, or an option that wants a value. -/
structure Cluster where
  sorted : Sorted
  pending : Option OptionSpec := none

/-- Take in the letters behind one dash. -/
def shorts? (specs : List OptionSpec) (s : Sorted) : List Char → Option Cluster
  | [] => some { sorted := s }
  | c :: cs => do
    let spec ← specs.find? (·.short = some c)
    if !spec.takesValue then shorts? specs (← s.set? spec none) cs
    else
      match cs with
      | [] => return { sorted := s, pending := some spec }
      | '=' :: value | value => return { sorted := ← s.set? spec (some (String.ofList value)) }

/-- Take in the text behind two dashes. -/
def long? (specs : List OptionSpec) (s : Sorted) (text : List Char) : Option Cluster := do
  let (name, value) := match splitAt? '=' text with
    | some (name, value) => (name, some (String.ofList value))
    | none => (text, none)
  let spec ← specs.find? (·.long = String.ofList name)
  match spec.takesValue, value with
  | true, some value => return { sorted := ← s.set? spec (some value) }
  | true, none => return { sorted := s, pending := some spec }
  | false, none => return { sorted := ← s.set? spec none }
  | false, some _ => none

/-- Sort arguments into options and others; `pending` is an option that waits for its value. -/
def sort? (specs : List OptionSpec) (s : Sorted) (pending : Option OptionSpec) :
    List String → Option Sorted
  | [] => if pending.isSome then none else some s
  | argument :: rest =>
    match pending with
    | some spec =>
      if canBeValue argument then
        (s.set? spec (some argument)).bind fun s => sort? specs s none rest
      else none
    | none =>
      match argument.toList with
      | ['-', '-'] => some { s with positionals := s.positionals ++ rest }
      | '-' :: '-' :: text =>
        (long? specs s text).bind fun c => sort? specs c.sorted c.pending rest
      | '-' :: c :: cs =>
        (shorts? specs s (c :: cs)).bind fun c => sort? specs c.sorted c.pending rest
      | _ => sort? specs { s with positionals := s.positionals ++ [argument] } none rest

end SsaIr.CommandLine
