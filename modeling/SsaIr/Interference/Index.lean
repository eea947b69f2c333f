import SsaIr.Graph.Numbered
import SsaIr.Interference
import SsaIr.NameTable

/-!
# Interference in a graph of numbered nodes

The names of a function have nodes in a graph, and a table keeps the number of each name's node.
Whatever is asked about names is looked up in the table first and then in the graph.
-/

namespace SsaIr

/-- The node of each name, and the graph of the nodes. -/
structure InterferenceIndex (G : Type) where
  graph : G
  numbers : NameTable Nat := ∅
  deriving DecidableEq

/-- A pair of names with the smaller one first. -/
def orderedPair (x y : String) : String × String := if Precedes y x then (y, x) else (x, y)

/-- Whether one pair of names comes before another: by its first name, then by its second. -/
def PairPrecedes (d e : String × String) : Prop := Precedes d.1 e.1 ∨ d.1 = e.1 ∧ Precedes d.2 e.2

instance (d e : String × String) : Decidable (PairPrecedes d e) :=
  inferInstanceAs (Decidable (_ ∨ _))

namespace InterferenceIndex

open NumberedGraph

variable {G : Type} [NumberedGraph G]

def empty : InterferenceIndex G where
  graph := NumberedGraph.empty

/-- The node of a name, which is added if need be. -/
def addName (g : InterferenceIndex G) (name : String) : InterferenceIndex G × Nat :=
  match g.numbers.find? name with
  | some n => (g, n)
  | none =>
    let (graph, n) := addNode g.graph name
    ({ graph, numbers := g.numbers.insert name n }, n)

def addEdge (g : InterferenceIndex G) (x y : String) : InterferenceIndex G :=
  let (g, m) := g.addName x
  let (g, n) := g.addName y
  { g with graph := connect g.graph m n }

/-- The names that a function mentions: its parameters, then what its instructions define and use. -/
def mentioned (f : Function) : List String :=
  f.parameterNames ++ f.instructions.flatMap fun i => i.defines.toList ++ i.uses.toList

/-- What instructions define, each with the other names live behind the instruction. -/
def definitionPairs (f : Function) (live : Liveness) : List (String × String) :=
  f.located.flatMap fun (p, i) =>
    match live.liveOut? p with
    | none => []
    | some after => i.defines.toList.flatMap fun x => (after.toList.filter (· ≠ x)).map (x, ·)

/-- Parameters, each with the parameters behind it and the names live at the entry. -/
def parameterPairs (entryLive : NameSet) : List String → List (String × String)
  | [] => []
  | x :: xs => ((xs ++ entryLive.toList).filter (· ≠ x)).map (x, ·) ++ parameterPairs entryLive xs

/-- The graph of a function with the given liveness. -/
def ofLiveness (f : Function) (live : Liveness) : InterferenceIndex G :=
  let names := (mentioned f).foldl (fun g x => (g.addName x).1) empty
  (definitionPairs f live ++ parameterPairs live.entryLive f.parameterNames).foldl
    (fun g pair => g.addEdge pair.1 pair.2) names

/-- The graph of a function. -/
def ofFunction (f : Function) : Except Error (InterferenceIndex G) :=
  (Liveness.ofFunction f).map (ofLiveness f)

def size (g : InterferenceIndex G) : Nat := g.numbers.size

def isEmpty (g : InterferenceIndex G) : Bool := g.numbers.entries.isEmpty

def contains (g : InterferenceIndex G) (name : String) : Bool := (g.numbers.find? name).isSome

def names (g : InterferenceIndex G) : NameSet := g.numbers.names

/-- The names whose nodes have an edge to that of a name. -/
def neighbors (g : InterferenceIndex G) (name : String) : NameSet :=
  match g.numbers.find? name with
  | none => ∅
  | some n => .ofList ((NumberedGraph.neighbors g.graph n).filterMap (text? g.graph))

def degree (g : InterferenceIndex G) (name : String) : Nat := (g.neighbors name).size

def interferes (g : InterferenceIndex G) (x y : String) : Bool :=
  match g.numbers.find? x, g.numbers.find? y with
  | some m, some n => adjacent g.graph m n
  | _, _ => false

/-- The names at the ends of an edge, the smaller one first. -/
def ends? (g : InterferenceIndex G) (edge : Nat × Nat) : Option (String × String) :=
  match text? g.graph edge.1, text? g.graph edge.2 with
  | some x, some y => some (orderedPair x y)
  | _, _ => none

/-- The names at the ends of each edge, in order. -/
def edges (g : InterferenceIndex G) : List (String × String) :=
  (((NumberedGraph.edges g.graph).filterMap g.ends?).mergeSort
    fun d e => ¬PairPrecedes e d).eraseDups

/-- Drop a name with its node, and tell whether it was there. -/
def remove (g : InterferenceIndex G) (name : String) : InterferenceIndex G × Bool :=
  match g.numbers.find? name with
  | some n => ({ graph := removeNode g.graph n, numbers := g.numbers.erase name }, true)
  | none => (g, false)

theorem size_remove_lt {g : InterferenceIndex G} {name : String} (h : name ∈ g.names) :
    (g.remove name).1.size < g.size := by
  obtain ⟨n, hn⟩ := Option.isSome_iff_exists.1 (NameTable.mem_names.1 h)
  rw [remove, hn]
  exact NameTable.size_erase_lt h

/-- The first name, in order, with fewer than `k` neighbours. -/
def simplifiable? (g : InterferenceIndex G) (k : Nat) : Option String :=
  g.names.toList.find? (g.degree · < k)

/-- Drop all names, each with fewer than `k` neighbours left when its turn comes, and put them on a
stack; none if that gets stuck. -/
def simplify? (k : Nat) (g : InterferenceIndex G) (stack : List String) : Option (List String) :=
  if g.isEmpty then some stack
  else
    match _h : g.simplifiable? k with
    | some name => simplify? k (g.remove name).1 (name :: stack)
    | none => none
termination_by g.size
decreasing_by exact size_remove_lt (List.mem_of_find?_eq_some _h)

/-- Give a name the lowest colour that no coloured neighbour has. -/
def assign (g : InterferenceIndex G) (colors : NameTable Nat) (name : String) : NameTable Nat :=
  colors.insert name
    (InterferenceGraph.lowestFree ((g.neighbors name).toList.filterMap colors.find?))

/-- Colour the names with fewer than `k` colours, the last name dropped first. -/
def color? (g : InterferenceIndex G) (k : Nat) : Option (NameTable Nat) :=
  (g.simplify? k []).map fun stack => stack.foldl g.assign ∅

end InterferenceIndex

end SsaIr
