import SsaIr.Proofs.Coloring.Simplification
import SsaIr.Proofs.Interference.Edges

/-!
# When colouring fails

Main statement: no colouring with `k` colours is found exactly if some names have `k` neighbours
each among themselves. Which names of small degree are dropped first makes no difference, more
colours never hurt, and as many colours as there are names are enough.
-/

namespace SsaIr

theorem NameSet.eq_empty_iff {s : NameSet} : s = ∅ ↔ ∀ x, x ∉ s := by
  constructor
  · rintro rfl
    exact not_mem_empty
  · intro h
    exact ext fun x => iff_of_false (h x) (not_mem_empty x)

namespace InterferenceGraph

variable {f : Function} {k : Nat} {g g₀ g' : InterferenceGraph}
variable {order dropped : List String}

/-- Simplification in any order finds out whether there is a colouring. -/
theorem Simplifies.color?_eq_none_iff (h : Simplifies k g order g') (hstuck : g'.Stuck k) :
    g.color? k = none ↔ g'.names ≠ ∅ := by
  obtain ⟨own, g₁, hrun, hstuck₁, horder⟩ := exists_simplifies k g
  -- Both runs end with the union of the dense sets.
  have hnames : g₁.names = g'.names := NameSet.ext fun x =>
    (hrun.mem_names_iff hstuck₁).trans (h.mem_names_iff hstuck).symm
  rw [color?, Option.map_eq_none_iff, horder, hnames]
  split
  · next hempty => simp [hempty]
  · next hleft => simp [hleft]

theorem Simplifies.names_eq_empty_iff (h : Simplifies k g order g') (hstuck : g'.Stuck k) :
    g'.names = ∅ ↔ (g.color? k).isSome := by
  rw [Option.isSome_iff_ne_none, Ne, h.color?_eq_none_iff hstuck, not_not]

theorem color?_eq_none_iff : g.color? k = none ↔ ∃ s, (∃ x, x ∈ s) ∧ g.Dense k s := by
  obtain ⟨order, g', hrun, hstuck, -⟩ := exists_simplifies k g
  rw [hrun.color?_eq_none_iff hstuck, Ne, NameSet.eq_empty_iff, not_forall_not]
  constructor
  · rintro ⟨x, hx⟩
    obtain ⟨s, hs, hxs⟩ := (hrun.mem_names_iff hstuck).1 hx
    exact ⟨s, ⟨x, hxs⟩, hs⟩
  · rintro ⟨s, ⟨x, hx⟩, hs⟩
    exact ⟨x, (hrun.mem_names_iff hstuck).2 ⟨s, hs, hx⟩⟩

theorem color?_isSome_succ (h : (g.color? k).isSome) : (g.color? (k + 1)).isSome := by
  rw [Option.isSome_iff_ne_none, Ne, color?_eq_none_iff] at h ⊢
  rintro ⟨s, hmem, hs⟩
  exact h ⟨s, hmem, hs.mono k.le_succ⟩

/-- A graph without loops has no dense set for as many neighbours as it has names. -/
theorem color?_isSome_size (hself : ∀ x, g.interferes x x = false) :
    (g.color? g.size).isSome := by
  rw [Option.isSome_iff_ne_none, Ne, color?_eq_none_iff]
  rintro ⟨s, ⟨x, hx⟩, hs⟩
  have hk : g.size ≤ g.degreeWithin s x := (hs x hx).2
  have hlt : g.degreeWithin s x < s.size := degreeWithin_lt (hself x) hx
  have hle : s.size ≤ g.size := NameSet.size_le_of_subset hs.subset
  omega

/-- Colouring with `k` colours fails exactly if there is a dense core: a set of names, not empty,
with at least `k` neighbours of each in the set. Names can be dropped until none has fewer than `k`
neighbours, and no run of that kind drops a name twice. Whatever the order, the names left in the
end are the members of dense sets, and none are left exactly if colouring succeeds. It succeeds
with one more colour if it does with `k`, and with as many as there are names. -/
theorem color_fails_on_dense_core (h : ofFunction f = .ok g₀) (hg : g₀.removeAll dropped = g) :
    (∀ k, g.color? k = none ↔ ∃ s, (∃ x, x ∈ s) ∧ g.Dense k s) ∧
    (∀ k, (∃ order g', Simplifies k g order g' ∧ g'.Stuck k) ∧
      ∀ order g', Simplifies k g order g' → order.length + g'.size = g.size ∧
        (g'.Stuck k → (∀ x, x ∈ g'.names ↔ ∃ s, g.Dense k s ∧ x ∈ s) ∧
          (g'.names = ∅ ↔ (g.color? k).isSome))) ∧
    (∀ k, (g.color? k).isSome → (g.color? (k + 1)).isSome) ∧ (g.color? g.size).isSome := by
  subst hg
  refine ⟨fun k => color?_eq_none_iff, fun k => ⟨?_, fun order g' hrun => ?_⟩,
    fun k => color?_isSome_succ, color?_isSome_size (interferes_self_removeAll h dropped)⟩
  · obtain ⟨order, g', hrun, hstuck, -⟩ := exists_simplifies k (g₀.removeAll dropped)
    exact ⟨order, g', hrun, hstuck⟩
  · exact ⟨hrun.length_add_size, fun hstuck =>
      ⟨fun x => hrun.mem_names_iff hstuck, hrun.names_eq_empty_iff hstuck⟩⟩

/-- The parameters and what is computed last in each turn of the loop need a fifth colour. -/
theorem color_fails_on_dense_core_sumBetween :
    sumGraph.Dense 4 (.ofList ["first", "last", "more", "next", "t"]) ∧
      sumGraph.color? 4 = none ∧ (sumGraph.color? 7).isSome ∧ (sumGraph.color? 8).isSome := by
  obtain ⟨hnone, -, hsucc, hsize⟩ :=
    color_fails_on_dense_core ofFunction_sumBetween (rfl : sumGraph.removeAll [] = sumGraph)
  have hdense : sumGraph.Dense 4 (.ofList ["first", "last", "more", "next", "t"]) := by
    decide +kernel
  exact ⟨hdense, (hnone 4).2 ⟨_, ⟨"t", by decide⟩, hdense⟩, hsize, hsucc 7 hsize⟩

end InterferenceGraph

end SsaIr
