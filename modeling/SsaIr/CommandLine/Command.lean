import SsaIr.CommandLine.Arguments

/-!
# Commands

What the program can be asked to do, and how it is asked.
-/

namespace SsaIr.CommandLine

inductive Command where
  /-- Write the module as text, to a file or to the standard output. -/
  | render (input : String) (output : Option String) (eliminatePhis explicitLabels : Bool)
  /-- Check the module. -/
  | check (input : String)
  /-- Write the module as JSON. -/
  | dump (input : String)
  /-- Write the graph of the blocks of one definition or of all. -/
  | cfg (input : String) (function : Option String) (dot : Bool)
  /-- Write the interference graph of a function, and colour it. -/
  | interference (input function : String) (colors : Option Nat) (eliminatePhis : Bool)
  deriving DecidableEq, Inhabited

namespace Command

def input : Command → String
  | render input .. | check input | dump input | cfg input .. | interference input .. => input

def verbose : OptionSpec := { long := "verbose", short := some 'v' }

def output : OptionSpec := { long := "output", short := some 'o', takesValue := true }

def eliminatePhi : OptionSpec := { long := "eliminate-phi" }

def explicitLabels : OptionSpec := { long := "explicit-labels" }

def function : OptionSpec := { long := "function", short := some 'f', takesValue := true }

def dot : OptionSpec := { long := "dot" }

def colors : OptionSpec := { long := "colors", short := some 'k', takesValue := true }

/-- The options of a command. -/
def specs? (name : String) : Option (List OptionSpec) :=
  match name with
  | "render" => some [verbose, output, eliminatePhi, explicitLabels]
  | "check" | "dump" => some [verbose]
  | "cfg" => some [verbose, function, dot]
  | "interference" => some [verbose, function, colors, eliminatePhi]
  | _ => none

/-- A path is any text but the empty one. -/
def path? (text : String) : Option String := if text.isEmpty then none else some text

/-- The value of an option that may be missing, if it is one of the right kind. -/
def optionalValue? {α : Type} (s : Sorted) (spec : OptionSpec) (read : String → Option α) :
    Option (Option α) :=
  match s.value? spec.long with
  | none => some none
  | some text => (read text).map some

/-- The command of a name and its sorted arguments. -/
def ofSorted? (name : String) (s : Sorted) : Option Command := do
  match s.positionals with
  | [text] =>
    let input ← path? text
    match name with
    | "render" =>
      return render input (← optionalValue? s output path?) (s.has eliminatePhi.long)
        (s.has explicitLabels.long)
    | "check" => return check input
    | "dump" => return dump input
    | "cfg" => return cfg input (s.value? function.long) (s.has dot.long)
    | "interference" =>
      let count (text : String) : Option Nat := Text.natBelow? 0x10000000000000000 text.toList
      return interference input (← s.value? function.long) (← optionalValue? s colors count)
        (s.has eliminatePhi.long)
    | _ => none
  | _ => none

/-- The command that arguments ask for, behind options that concern all commands; none if they
ask for no command in the right way. -/
def ofArguments? (s : Sorted) : List String → Option Command
  | [] => none
  | name :: rest =>
    match specs? name with
    | some specs => do ofSorted? name (← sort? specs {} none rest)
    | none =>
      match name.toList with
      | '-' :: '-' :: text =>
        (long? [verbose] s text).bind fun c => ofArguments? c.sorted rest
      | '-' :: c :: cs =>
        (shorts? [verbose] s (c :: cs)).bind fun c => ofArguments? c.sorted rest
      | _ => none

end Command

end SsaIr.CommandLine
