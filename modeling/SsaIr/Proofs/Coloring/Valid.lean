import SsaIr.Proofs.Coloring.Simplification
import SsaIr.Proofs.Interference.Edges

/-!
# Valid colourings

Main statement: a colouring with `k` colours gives each name of the graph a colour below `k`, and
names that interfere different ones. A name has fewer than `k` neighbours left when it is dropped,
and those are the ones that have their colours when its turn comes, so one of `k` colours is free.
-/

namespace SsaIr

namespace InterferenceGraph

variable {f : Function} {k : Nat} {g g₀ g' g'' : InterferenceGraph} {x y : String} {c : Nat}
variable {order dropped : List String} {colors : List (String × Nat)}

theorem lowestFree_le (taken : List Nat) : lowestFree taken ≤ taken.length := by
  unfold lowestFree
  cases h : (List.range (taken.length + 1)).find? (· ∉ taken) with
  | none => exact Nat.le_refl _
  | some n =>
      have hn := List.mem_range.1 (List.mem_of_find?_eq_some h)
      exact Nat.le_of_lt_succ hn

/-- Only names whose turn has come have a colour. -/
theorem mem_of_isSome_lookup (h : ((order.foldr g.assign []).lookup x).isSome) : x ∈ order := by
  induction order with
  | nil => cases h
  | cons name order ih =>
      by_cases hx : x = name
      · exact hx ▸ List.mem_cons_self
      · rw [List.foldr_cons, lookup_assign_of_ne hx] at h
        exact List.mem_cons_of_mem name (ih h)

/-- A name gets a colour that is at most the number of its coloured neighbours. -/
theorem lowestFree_le_degreeWithin {s : NameSet} (h : ∀ x, (colors.lookup x).isSome → x ∈ s) :
    lowestFree ((g.neighbors x).toList.filterMap (colors.lookup ·)) ≤ g.degreeWithin s x := by
  calc
    lowestFree ((g.neighbors x).toList.filterMap (colors.lookup ·)) ≤
        ((g.neighbors x).toList.filterMap (colors.lookup ·)).length := lowestFree_le _
    _ = ((g.neighbors x).filter fun y => (colors.lookup y).isSome).size := by
      rw [List.length_filterMap_eq_countP, List.countP_eq_length_filter]
      rfl
    _ ≤ g.degreeWithin s x := by
      apply NameSet.size_le_of_subset
      intro y hy
      rw [NameSet.mem_filter] at hy ⊢
      exact ⟨hy.1, decide_eq_true (h y hy.2)⟩

/-- Names dropped with fewer than `k` neighbours left are coloured with fewer than `k` colours. -/
theorem Simplifies.lookup_lt (h : Simplifies k g' order g'') (hg : g'.Induced g)
    (hx : (order.foldr g.assign []).lookup x = some c) : c < k := by
  induction h generalizing x c with
  | done => cases hx
  | @drop g' _ name order hname hdegree hrest ih =>
      by_cases hxn : x = name
      · subst hxn
        rw [List.foldr_cons, assign, List.lookup_cons_self] at hx
        have hcolored : ∀ y, ((order.foldr g.assign []).lookup y).isSome → y ∈ g'.names := by
          -- What has a colour by now is dropped later, so it is still there.
          intro y hy
          have hleft := hrest.mem_iff.2 (.inl (mem_of_isSome_lookup hy))
          exact (mem_names_remove.1 hleft).1
        calc
          c = lowestFree ((g.neighbors x).toList.filterMap ((order.foldr g.assign []).lookup ·)) :=
            (Option.some.inj hx).symm
          _ ≤ g.degreeWithin g'.names x := lowestFree_le_degreeWithin hcolored
          _ = g'.degree x := (hg.degree_eq hname).symm
          _ < k := hdegree
      · rw [List.foldr_cons, lookup_assign_of_ne hxn] at hx
        exact ih ((induced_remove g' name).trans hg) hx

theorem map_fst_filterMap_key {names : List String} (h : ∀ x ∈ names, (colors.lookup x).isSome) :
    (names.filterMap fun name => (colors.lookup name).map fun c => (name, c)).map Prod.fst =
      names := by
  induction names with
  | nil => rfl
  | cons name names ih =>
      obtain ⟨hname, hnames⟩ := List.forall_mem_cons.1 h
      obtain ⟨c, hc⟩ := Option.isSome_iff_exists.1 hname
      rw [List.filterMap_cons_some (by rw [hc]; rfl), List.map_cons, ih hnames]

/-- The names that a colouring colours are those of the graph, each once and in order. -/
theorem map_fst_of_color? (h : g.color? k = some colors) :
    colors.map Prod.fst = g.names.toList := by
  obtain ⟨order, horder, rfl⟩ := Option.map_eq_some_iff.1 h
  apply map_fst_filterMap_key
  intro x hx
  exact isSome_lookup_foldr_assign ((mem_simplificationOrder horder).2 hx)

theorem lt_of_color? (h : g.color? k = some colors) : ∀ p ∈ colors, p.2 < k := by
  obtain ⟨order, horder, rfl⟩ := Option.map_eq_some_iff.1 h
  obtain ⟨own, g', hrun, -, hown⟩ := exists_simplifies k g
  have hsame : own = order := by
    rw [horder] at hown
    split at hown
    · exact (Option.some.inj hown).symm
    · cases hown
  subst hsame
  intro p hp
  obtain ⟨x, -, hx⟩ := List.mem_filterMap.1 hp
  obtain ⟨c, hc, rfl⟩ := Option.map_eq_some_iff.1 hx
  exact hrun.lookup_lt (.refl g) hc

/-- A colouring of what removals have left of the graph of a function colours the names that are
left, with colours below `k`, and names that interfere differently. -/
theorem coloring_valid (h : ofFunction f = .ok g₀) (hg : g₀.removeAll dropped = g)
    (hcolors : g.color? k = some colors) :
    colors.map Prod.fst = g.names.toList ∧ (∀ p ∈ colors, p.2 < k) ∧
      ∀ x y, g.interferes x y = true →
        ∃ a b, colors.lookup x = some a ∧ colors.lookup y = some b ∧ a ≠ b := by
  subst hg
  exact ⟨map_fst_of_color? hcolors, lt_of_color? hcolors, fun _ _ => exists_colors_of_interferes
    (interferes_comm_removeAll h dropped) (interferes_self_removeAll h dropped) hcolors⟩

/-- A colouring of what is left of `sumGraph` without `last`. -/
def sumColors : List (String × Nat) :=
  [("first", 2), ("i", 1), ("more", 3), ("next", 1), ("s", 0), ("t", 0)]

theorem coloring_valid_sumBetween :
    (sumGraph.removeAll ["last", "absent"]).color? 4 = some sumColors ∧
      sumColors.map Prod.fst = (sumGraph.removeAll ["last", "absent"]).names.toList ∧
      (∀ p ∈ sumColors, p.2 < 4) ∧
      ∀ x y, (sumGraph.removeAll ["last", "absent"]).interferes x y = true →
        ∃ a b, sumColors.lookup x = some a ∧ sumColors.lookup y = some b ∧ a ≠ b := by
  have hcolors : (sumGraph.removeAll ["last", "absent"]).color? 4 = some sumColors := by
    decide +kernel
  exact ⟨hcolors, coloring_valid ofFunction_sumBetween rfl hcolors⟩

end InterferenceGraph

end SsaIr
