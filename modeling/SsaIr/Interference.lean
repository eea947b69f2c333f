import SsaIr.Liveness

/-!
# Interference

Two names interfere if one of them is defined where the other is live afterwards. Parameters are
all defined at the entry of their function, so they interfere with each other and with everything
live there. The graph keeps for each name the names it was built to interfere with; dropping a
name hides it from all views.
-/

namespace SsaIr

structure InterferenceGraph where
  /-- The names that have not been dropped. -/
  names : NameSet := ∅
  /-- What each name interferes with, whether or not dropped. -/
  adjacency : List (String × NameSet) := []
  deriving DecidableEq, Inhabited

namespace InterferenceGraph

/-- The names that a definition of `name` clashes with: all others live after it. -/
def clashes (f : Function) (live : Liveness) (name : String) : NameSet :=
  let atEntry := if f.isParameter name then NameSet.ofList f.parameterNames ∪ live.entryLive else ∅
  let definitions := f.located.filter (·.2.result = some name)
  let atDefinitions := definitions.map fun (p, _) => (live.liveOut? p).getD ∅
  (atDefinitions.foldr (· ∪ ·) atEntry).erase name

/-- The graph of a function with the given liveness. -/
def ofLiveness (f : Function) (live : Liveness) : InterferenceGraph :=
  let mentioned := f.instructions.flatMap fun i => i.defines.toList ++ i.uses.toList
  let names := NameSet.ofList (f.parameterNames ++ mentioned)
  let table := names.toList.map fun name => (name, clashes f live name)
  let clash (a b : String) : Bool := (table.lookup a).any (b ∈ ·)
  { names
    adjacency := names.toList.map fun a => (a, names.filter fun b => clash a b || clash b a) }

/-- The graph of a function. -/
def ofFunction (f : Function) : Except Error InterferenceGraph :=
  (Liveness.ofFunction f).map (ofLiveness f)

def size (g : InterferenceGraph) : Nat := g.names.size

/-- The names that interfere with a name. -/
def neighbors (g : InterferenceGraph) (name : String) : NameSet :=
  if name ∈ g.names then ((g.adjacency.lookup name).getD ∅).filter (· ∈ g.names) else ∅

def degree (g : InterferenceGraph) (name : String) : Nat := (g.neighbors name).size

def interferes (g : InterferenceGraph) (a b : String) : Bool := b ∈ g.neighbors a

/-- The pairs of names that interfere, each once with its smaller name first, in order. -/
def edges (g : InterferenceGraph) : List (String × String) :=
  g.names.toList.flatMap fun a =>
    ((g.neighbors a).toList.filter (Precedes a ·)).map fun b => (a, b)

/-- Drop a name; nothing happens if it is not there. -/
def remove (g : InterferenceGraph) (name : String) : InterferenceGraph :=
  { g with names := g.names.erase name }

theorem size_remove_lt {g : InterferenceGraph} {name : String} (h : name ∈ g.names) :
    (g.remove name).size < g.size := by
  show (g.names.toList.filter (· ≠ name)).length < g.names.toList.length
  exact List.length_filter_lt_length_iff_exists.2 ⟨name, h, by simp⟩

/-- The first name, in order, with fewer than `k` neighbours. -/
def simplifiable? (g : InterferenceGraph) (k : Nat) : Option String :=
  g.names.toList.find? (g.degree · < k)

/-- The names in the order in which they are dropped, where each has fewer than `k` neighbours
left when its turn comes; none if that gets stuck. -/
def simplificationOrder? (k : Nat) (g : InterferenceGraph) : Option (List String) :=
  match _h : g.simplifiable? k with
  | some name => (simplificationOrder? k (g.remove name)).map (name :: ·)
  | none => if g.names = ∅ then some [] else none
termination_by g.size
decreasing_by exact size_remove_lt (List.mem_of_find?_eq_some _h)

/-- The smallest number that is not in the list. -/
def lowestFree (taken : List Nat) : Nat :=
  ((List.range (taken.length + 1)).find? (· ∉ taken)).getD taken.length

/-- Among the numbers up to the length of a list, one is missing from it. -/
theorem lowestFree_not_mem (taken : List Nat) : lowestFree taken ∉ taken := by
  unfold lowestFree
  cases h : (List.range (taken.length + 1)).find? (· ∉ taken) with
  | some n => simpa using List.find?_some h
  | none =>
      have hsub : List.range (taken.length + 1) ⊆ taken := fun n hn => by
        simpa using List.find?_eq_none.1 h n hn
      have hle := (List.nodup_range (n := taken.length + 1)).length_le_of_subset hsub
      simp only [List.length_range] at hle
      omega

/-- Give a name the lowest colour that no coloured neighbour has. -/
def assign (g : InterferenceGraph) (name : String) (colors : List (String × Nat)) :
    List (String × Nat) :=
  (name, lowestFree ((g.neighbors name).toList.filterMap (colors.lookup ·))) :: colors

/-- Colour the names with fewer than `k` colours, the last name dropped first; the names come in
order. -/
def color? (g : InterferenceGraph) (k : Nat) : Option (List (String × Nat)) :=
  (simplificationOrder? k g).map fun order =>
    let colors := order.foldr g.assign []
    g.names.toList.filterMap fun name => (colors.lookup name).map fun c => (name, c)

end InterferenceGraph

end SsaIr
