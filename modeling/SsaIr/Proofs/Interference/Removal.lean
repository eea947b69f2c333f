import SsaIr.Proofs.Interference

/-!
# Dropping names from an interference graph

Dropping names leaves the graph that the other names induce: its names are fewer, and two of them
interfere exactly if they did before. Degrees in what is left are therefore counted in the whole
graph, among the names that are left.
-/

namespace SsaIr

namespace InterferenceGraph

variable {f : Function} {g g' g'' : InterferenceGraph} {s t : NameSet} {x y name : String}

/-- Drop names one after the other. -/
def removeAll (g : InterferenceGraph) (dropped : List String) : InterferenceGraph :=
  dropped.foldl remove g

/-- The first graph is the part of the second one that its names induce. -/
structure Induced (g' g : InterferenceGraph) : Prop where
  subset : g'.names ⊆ g.names
  adjacency : g'.adjacency = g.adjacency

theorem Induced.refl (g : InterferenceGraph) : g.Induced g := ⟨NameSet.subset_refl _, rfl⟩

theorem Induced.trans (h : g''.Induced g') (k : g'.Induced g) : g''.Induced g :=
  ⟨NameSet.subset_trans h.subset k.subset, h.adjacency.trans k.adjacency⟩

theorem induced_remove (g : InterferenceGraph) (name : String) : (g.remove name).Induced g where
  subset := fun _ hx => (NameSet.mem_erase.1 hx).1
  adjacency := rfl

theorem induced_removeAll (g : InterferenceGraph) (dropped : List String) :
    (g.removeAll dropped).Induced g := by
  induction dropped generalizing g with
  | nil => exact .refl g
  | cons name dropped ih => exact (ih (g.remove name)).trans (induced_remove g name)

/-- Dropping a name that is there leaves one name less. -/
theorem size_remove (h : name ∈ g.names) : (g.remove name).size + 1 = g.size := by
  have herase : g.names.toList.filter (· ≠ name) = g.names.toList.erase name := by
    rw [g.names.nodup_toList.erase_eq_filter]
    exact List.filter_congr fun x _ => Bool.eq_iff_iff.2 (by simp)
  calc
    (g.remove name).size + 1 = (g.names.toList.filter (· ≠ name)).length + 1 := rfl
    _ = g.names.toList.length - 1 + 1 := by rw [herase, List.length_erase_of_mem h]
    _ = g.size := Nat.sub_add_cancel (List.length_pos_of_mem h)

theorem neighbors_subset : g.neighbors x ⊆ g.names := fun _ hy => (mem_neighbors_iff.1 hy).2.1

theorem Induced.mem_neighbors_iff (h : g'.Induced g) :
    y ∈ g'.neighbors x ↔ x ∈ g'.names ∧ y ∈ g'.names ∧ y ∈ g.neighbors x := by
  rw [InterferenceGraph.mem_neighbors_iff, InterferenceGraph.mem_neighbors_iff, h.adjacency]
  constructor
  · rintro ⟨hx, hy, hxy⟩
    exact ⟨hx, hy, h.subset x hx, h.subset y hy, hxy⟩
  · rintro ⟨hx, hy, -, -, hxy⟩
    exact ⟨hx, hy, hxy⟩

theorem Induced.interferes_iff (h : g'.Induced g) :
    g'.interferes x y = true ↔ x ∈ g'.names ∧ y ∈ g'.names ∧ g.interferes x y = true := by
  simp only [interferes, decide_eq_true_eq, h.mem_neighbors_iff]

theorem Induced.interferes_comm (h : g'.Induced g)
    (hcomm : ∀ x y, g.interferes x y = g.interferes y x) (x y : String) :
    g'.interferes x y = g'.interferes y x := by
  rw [Bool.eq_iff_iff, h.interferes_iff, h.interferes_iff, hcomm x y]
  exact and_left_comm

theorem Induced.interferes_self (h : g'.Induced g) (hself : ∀ x, g.interferes x x = false)
    (x : String) : g'.interferes x x = false := by
  rw [Bool.eq_false_iff, ne_eq, h.interferes_iff, hself x]
  simp

theorem interferes_comm_removeAll (h : ofFunction f = .ok g) (dropped : List String)
    (x y : String) : (g.removeAll dropped).interferes x y = (g.removeAll dropped).interferes y x :=
  (induced_removeAll g dropped).interferes_comm (interferes_comm_of_ofFunction h) x y

theorem interferes_self_removeAll (h : ofFunction f = .ok g) (dropped : List String) (x : String) :
    (g.removeAll dropped).interferes x x = false :=
  (induced_removeAll g dropped).interferes_self (interferes_self_of_ofFunction h) x

/-- How many neighbours of a name lie in a set. -/
def degreeWithin (g : InterferenceGraph) (s : NameSet) (name : String) : Nat :=
  ((g.neighbors name).filter (· ∈ s)).size

theorem degreeWithin_mono (h : s ⊆ t) : g.degreeWithin s x ≤ g.degreeWithin t x := by
  apply NameSet.size_le_of_subset
  intro y hy
  simp only [NameSet.mem_filter, decide_eq_true_eq] at hy ⊢
  exact ⟨hy.1, h y hy.2⟩

/-- Among names of an induced graph, degrees are those of the whole graph. -/
theorem Induced.degreeWithin_eq (h : g'.Induced g) (hs : s ⊆ g'.names) (hx : x ∈ g'.names) :
    g'.degreeWithin s x = g.degreeWithin s x := by
  refine congrArg NameSet.size (NameSet.ext fun y => ?_)
  simp only [NameSet.mem_filter, decide_eq_true_eq, h.mem_neighbors_iff]
  constructor
  · rintro ⟨⟨-, -, hy⟩, hys⟩
    exact ⟨hy, hys⟩
  · rintro ⟨hy, hys⟩
    exact ⟨⟨hx, hs y hys, hy⟩, hys⟩

theorem degreeWithin_names (g : InterferenceGraph) (x : String) :
    g.degreeWithin g.names x = g.degree x := by
  refine congrArg NameSet.size (NameSet.ext fun y => ?_)
  rw [NameSet.mem_filter, decide_eq_true_eq]
  exact and_iff_left_of_imp (neighbors_subset y)

/-- The degree of a name in an induced graph counts its neighbours that are left. -/
theorem Induced.degree_eq (h : g'.Induced g) (hx : x ∈ g'.names) :
    g'.degree x = g.degreeWithin g'.names x := by
  rw [← degreeWithin_names, h.degreeWithin_eq (NameSet.subset_refl _) hx]

/-- A name with no edge to itself has fewer neighbours in a set than the set has names. -/
theorem degreeWithin_lt (hself : g.interferes x x = false) (hx : x ∈ s) :
    g.degreeWithin s x < s.size := by
  have hne : x ∉ g.neighbors x := of_decide_eq_false hself
  refine NameSet.size_lt_of_subset_of_mem (fun y hy => ?_) hx fun hin => ?_
  · simpa using (NameSet.mem_filter.1 hy).2
  · exact hne (NameSet.mem_filter.1 hin).1

end InterferenceGraph

end SsaIr
