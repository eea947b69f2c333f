/-!
# Graphs with numbered nodes

Undirected graphs whose nodes carry texts and go by numbers. A number stays that of its node for as
long as the node is there, whatever other nodes come and go. `ListedGraph` is a simple graph of this
kind.
-/

namespace SsaIr

/-- What can be done with a graph of numbered nodes. -/
class NumberedGraph (G : Type) where
  empty : G
  /-- Add a node with a text. The node gets a number. -/
  addNode : G → String → G × Nat
  /-- Put an edge between two nodes, unless there is one. -/
  connect : G → Nat → Nat → G
  /-- Take a node out, with its edges. -/
  removeNode : G → Nat → G
  /-- The text of a node; none if there is no node of that number. -/
  text? : G → Nat → Option String
  /-- Whether there is an edge between two nodes. -/
  adjacent : G → Nat → Nat → Bool
  /-- The other ends of the edges of a node, in no particular order. -/
  neighbors : G → Nat → List Nat
  /-- The ends of all edges, in no particular order. -/
  edges : G → List (Nat × Nat)

open NumberedGraph

/-- What a graph of numbered nodes keeps to. -/
class LawfulNumberedGraph (G : Type) [NumberedGraph G] : Prop where
  text?_empty (n : Nat) : text? (empty : G) n = none
  /-- A new node has a number that no node has. -/
  text?_new (g : G) (x : String) : text? g (addNode g x).2 = none
  text?_addNode (g : G) (x : String) (n : Nat) :
    text? (addNode g x).1 n = if n = (addNode g x).2 then some x else text? g n
  adjacent_addNode (g : G) (x : String) (m n : Nat) :
    adjacent (addNode g x).1 m n = adjacent g m n
  text?_connect (g : G) (m n k : Nat) : text? (connect g m n) k = text? g k
  adjacent_connect {g : G} {m n : Nat} (hm : (text? g m).isSome) (hn : (text? g n).isSome)
    (j k : Nat) : adjacent (connect g m n) j k = true ↔
      adjacent g j k = true ∨ j = m ∧ k = n ∨ j = n ∧ k = m
  /-- All other nodes keep their numbers when a node is taken out. -/
  text?_removeNode (g : G) (m n : Nat) :
    text? (removeNode g m) n = if n = m then none else text? g n
  adjacent_removeNode (g : G) (m j k : Nat) :
    adjacent (removeNode g m) j k = true ↔ adjacent g j k = true ∧ j ≠ m ∧ k ≠ m
  /-- The ends of an edge are nodes. -/
  text?_of_adjacent {g : G} {m n : Nat} (h : adjacent g m n = true) :
    (text? g m).isSome ∧ (text? g n).isSome
  mem_neighbors {g : G} {m n : Nat} : n ∈ neighbors g m ↔ adjacent g m n = true
  adjacent_iff_mem_edges {g : G} {m n : Nat} :
    adjacent g m n = true ↔ (m, n) ∈ edges g ∨ (n, m) ∈ edges g

namespace ListedGraph

/-- The text in a place; none if the place is not there or has no text. -/
def textAt? (texts : List (Option String)) (n : Nat) : Option String := texts[n]?.join

variable {texts : List (Option String)} {x : String} {m n : Nat}

theorem textAt?_length (texts : List (Option String)) : textAt? texts texts.length = none := by
  simp [textAt?]

theorem textAt?_append :
    textAt? (texts ++ [some x]) n = if n = texts.length then some x else textAt? texts n := by
  rw [textAt?]
  by_cases hn : n < texts.length
  · rw [List.getElem?_append_left hn, if_neg (Nat.ne_of_lt hn), textAt?]
  · rw [List.getElem?_append_right (Nat.le_of_not_lt hn)]
    by_cases hlength : n = texts.length
    · simp [hlength]
    · have hpos : n - texts.length ≠ 0 := by omega
      simp [hlength, textAt?, List.getElem?_eq_none (Nat.le_of_not_lt hn), hpos]

theorem textAt?_set :
    textAt? (texts.set m none) n = if n = m then none else textAt? texts n := by
  rw [textAt?, List.getElem?_set]
  by_cases hn : n = m
  · by_cases hm : m < texts.length <;> simp [hn, hm]
  · rw [if_neg (Ne.symm hn), if_neg hn, textAt?]

end ListedGraph

/-- The texts of the nodes by number, and the edges. The number of a node that was taken out has no
text, and is not given again. -/
structure ListedGraph where
  texts : List (Option String) := []
  links : List (Nat × Nat) := []
  inside : ∀ link ∈ links, (ListedGraph.textAt? texts link.1).isSome ∧
    (ListedGraph.textAt? texts link.2).isSome := by simp
  deriving DecidableEq

namespace ListedGraph

variable {g : ListedGraph}

def text? (g : ListedGraph) : Nat → Option String := textAt? g.texts

def adjacent (g : ListedGraph) (m n : Nat) : Bool := (m, n) ∈ g.links ∨ (n, m) ∈ g.links

def addNode (g : ListedGraph) (x : String) : ListedGraph × Nat where
  fst :=
    { g with
      texts := g.texts ++ [some x]
      inside := fun link hlink => by
        have hkeep : ∀ n, (textAt? g.texts n).isSome →
            (textAt? (g.texts ++ [some x]) n).isSome := by
          intro n hn
          rw [textAt?_append]
          split
          · rfl
          · exact hn
        exact ⟨hkeep _ (g.inside link hlink).1, hkeep _ (g.inside link hlink).2⟩ }
  snd := g.texts.length

def connect (g : ListedGraph) (m n : Nat) : ListedGraph :=
  if h : ((g.text? m).isSome ∧ (g.text? n).isSome) ∧ g.adjacent m n = false then
    { g with
      links := g.links ++ [(m, n)]
      inside := fun link hlink => by
        rcases List.mem_append.1 hlink with hlink | hlink
        · exact g.inside link hlink
        · obtain rfl := List.mem_singleton.1 hlink
          exact h.1 }
  else g

def removeNode (g : ListedGraph) (m : Nat) : ListedGraph where
  texts := g.texts.set m none
  links := g.links.filter fun link => link.1 ≠ m ∧ link.2 ≠ m
  inside := fun link hlink => by
    obtain ⟨hmem, hne⟩ := List.mem_filter.1 hlink
    rw [decide_eq_true_eq] at hne
    rw [textAt?_set, textAt?_set, if_neg hne.1, if_neg hne.2]
    exact g.inside link hmem

def neighbors (g : ListedGraph) (m : Nat) : List Nat :=
  g.links.filterMap fun link =>
    if link.1 = m then some link.2 else if link.2 = m then some link.1 else none

instance : NumberedGraph ListedGraph where
  empty := {}
  addNode
  connect
  removeNode
  text?
  adjacent
  neighbors
  edges := links

theorem adjacent_iff : g.adjacent m n = true ↔ (m, n) ∈ g.links ∨ (n, m) ∈ g.links :=
  decide_eq_true_iff

theorem mem_neighbors_iff : n ∈ g.neighbors m ↔ g.adjacent m n = true := by
  rw [neighbors, List.mem_filterMap, adjacent_iff]
  constructor
  · rintro ⟨link, hlink, heq⟩
    split at heq
    · next hm =>
        cases heq
        exact .inl (hm ▸ hlink)
    · split at heq
      · next hm =>
          cases heq
          exact .inr (hm ▸ hlink)
      · cases heq
  · rintro (hlink | hlink)
    · exact ⟨_, hlink, if_pos rfl⟩
    · refine ⟨_, hlink, ?_⟩
      by_cases hn : n = m <;> simp [hn]

theorem text?_connect (g : ListedGraph) (m n : Nat) : (g.connect m n).text? = g.text? := by
  rw [connect]
  split <;> rfl

theorem adjacent_connect (hm : (g.text? m).isSome) (hn : (g.text? n).isSome) (j k : Nat) :
    (g.connect m n).adjacent j k = true ↔
      g.adjacent j k = true ∨ j = m ∧ k = n ∨ j = n ∧ k = m := by
  by_cases hmn : g.adjacent m n = true
  · rw [connect, dif_neg (by simp [hmn])]
    refine ⟨.inl, ?_⟩
    rintro (h | ⟨rfl, rfl⟩ | ⟨rfl, rfl⟩)
    · exact h
    · exact hmn
    · exact adjacent_iff.2 (adjacent_iff.1 hmn).symm
  · rw [connect, dif_pos ⟨⟨hm, hn⟩, by simpa using hmn⟩, adjacent_iff]
    simp only [adjacent_iff, List.mem_append, List.mem_singleton, Prod.mk.injEq]
    constructor
    · rintro ((h | h) | h | ⟨rfl, rfl⟩)
      · exact .inl (.inl h)
      · exact .inr (.inl h)
      · exact .inl (.inr h)
      · exact .inr (.inr ⟨rfl, rfl⟩)
    · rintro ((h | h) | h | ⟨rfl, rfl⟩)
      · exact .inl (.inl h)
      · exact .inr (.inl h)
      · exact .inl (.inr h)
      · exact .inr (.inr ⟨rfl, rfl⟩)

theorem adjacent_removeNode (g : ListedGraph) (m j k : Nat) :
    (g.removeNode m).adjacent j k = true ↔ g.adjacent j k = true ∧ j ≠ m ∧ k ≠ m := by
  rw [adjacent_iff, adjacent_iff, removeNode]
  simp only [List.mem_filter, decide_eq_true_eq, and_comm (a := k ≠ m)]
  exact or_and_right.symm

instance : LawfulNumberedGraph ListedGraph where
  text?_empty _ := rfl
  text?_new g _ := textAt?_length g.texts
  text?_addNode _ _ _ := textAt?_append
  adjacent_addNode _ _ _ _ := rfl
  text?_connect g m n k := congrFun (text?_connect g m n) k
  adjacent_connect := adjacent_connect
  text?_removeNode _ _ _ := textAt?_set
  adjacent_removeNode := adjacent_removeNode
  text?_of_adjacent {g m n} h := by
    rcases adjacent_iff.1 h with h | h
    · exact g.inside _ h
    · exact (g.inside _ h).symm
  mem_neighbors := mem_neighbors_iff
  adjacent_iff_mem_edges := adjacent_iff

end ListedGraph

end SsaIr
