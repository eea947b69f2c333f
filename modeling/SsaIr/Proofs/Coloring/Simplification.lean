import SsaIr.Proofs.Interference.Removal

/-!
# Simplification

A graph is simplified by dropping names with fewer than `k` neighbours left, in whatever order.
A set of names each of which has `k` neighbours within the set loses no member that way; and what
simplification gets stuck on is such a set. So every order ends with the same names, and colouring
fails exactly if there are any.
-/

namespace SsaIr

namespace InterferenceGraph

variable {k : Nat} {g g' : InterferenceGraph} {s : NameSet} {x name : String}
variable {order : List String}

/-- Names dropped in order, each with fewer than `k` neighbours when its turn comes, and the graph
that is left. -/
inductive Simplifies (k : Nat) : InterferenceGraph → List String → InterferenceGraph → Prop where
  | done (g : InterferenceGraph) : Simplifies k g [] g
  | drop {g g' : InterferenceGraph} {name : String} {order : List String} : name ∈ g.names →
      g.degree name < k → Simplifies k (g.remove name) order g' → Simplifies k g (name :: order) g'

/-- No name that is there has fewer than `k` neighbours. -/
def Stuck (k : Nat) (g : InterferenceGraph) : Prop := ∀ x ∈ g.names, k ≤ g.degree x

/-- Every name of the set has at least `k` neighbours in the set. -/
def Dense (g : InterferenceGraph) (k : Nat) (s : NameSet) : Prop :=
  ∀ x ∈ s, x ∈ g.names ∧ k ≤ g.degreeWithin s x

instance : Decidable (g.Dense k s) :=
  inferInstanceAs (Decidable (∀ x ∈ s.toList, x ∈ g.names ∧ k ≤ g.degreeWithin s x))

theorem Dense.subset (h : g.Dense k s) : s ⊆ g.names := fun x hx => (h x hx).1

theorem Dense.mono {k' : Nat} (h : g.Dense k s) (hk : k' ≤ k) : g.Dense k' s :=
  fun x hx => ⟨(h x hx).1, hk.trans (h x hx).2⟩

/-- Being dense is a matter of the names of the set. -/
theorem Induced.dense_iff (h : g'.Induced g) (hs : s ⊆ g'.names) :
    g'.Dense k s ↔ g.Dense k s := by
  refine forall₂_congr fun x hx => ?_
  have hx' := hs x hx
  rw [h.degreeWithin_eq hs hx']
  exact and_congr_left' (iff_of_true hx' (h.subset x hx'))

theorem Stuck.dense (h : g.Stuck k) : g.Dense k g.names := by
  intro x hx
  rw [degreeWithin_names]
  exact ⟨hx, h x hx⟩

/-- No member of a dense set is ever dropped first. -/
theorem Dense.not_mem (h : g.Dense k s) (hname : g.degree name < k) : name ∉ s := by
  intro hmem
  obtain ⟨-, hk⟩ := h name hmem
  have hle : g.degreeWithin s name ≤ g.degree name := by
    rw [← degreeWithin_names]
    exact degreeWithin_mono h.subset
  omega

/-- A dense set stays dense when a name of small degree is dropped. -/
theorem Dense.remove (h : g.Dense k s) (hname : g.degree name < k) :
    (g.remove name).Dense k s := by
  refine ((induced_remove g name).dense_iff fun x hx => ?_).2 h
  have hne : x ≠ name := by
    rintro rfl
    exact h.not_mem hname hx
  exact mem_names_remove.2 ⟨h.subset x hx, hne⟩

theorem Simplifies.induced (h : Simplifies k g order g') : g'.Induced g := by
  induction h with
  | done g => exact .refl g
  | @drop g _ name _ _ _ _ ih => exact ih.trans (induced_remove g name)

/-- Simplification leaves dense sets alone, in any order. -/
theorem Simplifies.dense (h : Simplifies k g order g') (hs : g.Dense k s) : g'.Dense k s := by
  induction h with
  | done g => exact hs
  | drop _ hname _ ih => exact ih (hs.remove hname)

/-- What simplification gets stuck on is the union of all dense sets. -/
theorem Simplifies.mem_names_iff (h : Simplifies k g order g') (hstuck : g'.Stuck k) :
    x ∈ g'.names ↔ ∃ s, g.Dense k s ∧ x ∈ s := by
  constructor
  · intro hx
    exact ⟨g'.names, (h.induced.dense_iff (NameSet.subset_refl _)).1 hstuck.dense, hx⟩
  · rintro ⟨s, hs, hx⟩
    exact (h.dense hs).subset x hx

/-- Every name is dropped once or left over, so runs are not longer than the graph is large. -/
theorem Simplifies.length_add_size (h : Simplifies k g order g') :
    order.length + g'.size = g.size := by
  induction h with
  | done g => exact Nat.zero_add _
  | drop hmem _ _ ih =>
      have hsize := size_remove hmem
      rw [List.length_cons]
      omega

/-- What is dropped or left over was there. -/
theorem Simplifies.mem_iff (h : Simplifies k g order g') :
    x ∈ g.names ↔ x ∈ order ∨ x ∈ g'.names := by
  induction h with
  | done g => simp
  | @drop g g' name order hmem _ _ ih =>
      rw [List.mem_cons, or_assoc, ← ih, mem_names_remove]
      by_cases hx : x = name
      · simp [hx, hmem]
      · simp [hx]

theorem simplifiable?_eq_none_iff : g.simplifiable? k = none ↔ g.Stuck k := by
  simp [simplifiable?, Stuck, NameSet.mem_toList]

/-- The order in which names are dropped is one in which the graph can be simplified until it is
stuck, and it counts if nothing is left then. -/
theorem exists_simplifies (k : Nat) (g : InterferenceGraph) :
    ∃ order g', Simplifies k g order g' ∧ g'.Stuck k ∧
      g.simplificationOrder? k = if g'.names = ∅ then some order else none := by
  fun_induction simplificationOrder? k g with
  | case1 g name hname ih =>
      obtain ⟨order, g', hrun, hstuck, horder⟩ := ih
      have hmem : name ∈ g.names := List.mem_of_find?_eq_some hname
      have hdegree : g.degree name < k := by simpa using List.find?_some hname
      refine ⟨name :: order, g', .drop hmem hdegree hrun, hstuck, ?_⟩
      rw [horder]
      split <;> rfl
  | case2 g hnone hempty =>
      exact ⟨[], g, .done g, simplifiable?_eq_none_iff.1 hnone, by rw [if_pos hempty]⟩
  | case3 g hnone hnames =>
      exact ⟨[], g, .done g, simplifiable?_eq_none_iff.1 hnone, by rw [if_neg hnames]⟩

end InterferenceGraph

end SsaIr
