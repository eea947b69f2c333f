import Mathlib.Data.List.Sort
import SsaIr.Proofs.Interference.Edges
import SsaIr.Proofs.Interference.Index

/-!
# Views of an interference index

Neighbours, degrees, edges and single pairs of names are found in different ways, and they agree for
as long as the table and the graph do. After names were dropped, all of them show the part of the
graph that the other names induce.
-/

namespace SsaIr

/-! ## Pairs of names in order -/

section Pairs

variable {a b x y : String} {d e : String × String}

theorem PairPrecedes.irrefl (e : String × String) : ¬PairPrecedes e e := by
  rintro (h | ⟨-, h⟩)
  · exact h.irrefl
  · exact h.irrefl

theorem PairPrecedes.trans {c d e : String × String} (h : PairPrecedes c d) (k : PairPrecedes d e) :
    PairPrecedes c e := by
  rcases h with h | ⟨h, h'⟩
  · rcases k with k | ⟨k, -⟩
    · exact .inl (h.trans k)
    · exact .inl (k ▸ h)
  · rcases k with k | ⟨k, k'⟩
    · exact .inl (h ▸ k)
    · exact .inr ⟨h.trans k, h'.trans k'⟩

theorem PairPrecedes.total (h : d ≠ e) (k : ¬PairPrecedes d e) : PairPrecedes e d := by
  rw [PairPrecedes, not_or, not_and] at k
  by_cases h₁ : d.1 = e.1
  · have h₂ : d.2 ≠ e.2 := fun h₂ => h (Prod.ext h₁ h₂)
    exact .inr ⟨h₁.symm, Precedes.total h₂ (k.2 h₁)⟩
  · exact .inl (Precedes.total h₁ k.1)

instance : Std.Irrefl PairPrecedes := ⟨PairPrecedes.irrefl⟩

instance : Std.Antisymm PairPrecedes :=
  ⟨fun d _ h k => absurd (h.trans k) (PairPrecedes.irrefl d)⟩

theorem orderedPair_eq_or (x y : String) : orderedPair x y = (x, y) ∨ orderedPair x y = (y, x) := by
  rw [orderedPair]
  split
  · exact .inr rfl
  · exact .inl rfl

theorem orderedPair_comm (x y : String) : orderedPair x y = orderedPair y x := by
  by_cases hxy : x = y
  · rw [hxy]
  · rw [orderedPair, orderedPair]
    by_cases h : Precedes x y
    · rw [if_neg fun k => (h.trans k).irrefl, if_pos h]
    · rw [if_pos (Precedes.total hxy h), if_neg h]

/-- Ordered pairs are equal if they are pairs of the same names. -/
theorem orderedPair_eq_iff : orderedPair a b = orderedPair x y ↔ a = x ∧ b = y ∨ a = y ∧ b = x := by
  constructor
  · intro h
    rcases orderedPair_eq_or a b with hab | hab <;> rcases orderedPair_eq_or x y with hxy | hxy <;>
      rw [hab, hxy, Prod.mk.injEq] at h
    · exact .inl h
    · exact .inr h
    · exact .inr h.symm
    · exact .inl h.symm
  · rintro (⟨rfl, rfl⟩ | ⟨rfl, rfl⟩)
    · rfl
    · exact orderedPair_comm a b

/-- A sorted list of pairs is strictly sorted once the repeated ones are out. -/
theorem pairwise_eraseDups : ∀ {es : List (String × String)},
    es.Pairwise (fun d e => ¬PairPrecedes e d) → es.eraseDups.Pairwise PairPrecedes
  | [], _ => .nil
  | e :: es, h => by
      obtain ⟨he, hes⟩ := List.pairwise_cons.1 h
      rw [List.eraseDups_cons]
      refine List.pairwise_cons.2 ⟨fun d hd => ?_, pairwise_eraseDups (hes.filter _)⟩
      obtain ⟨hd, hne⟩ := List.mem_filter.1 (List.mem_eraseDups.1 hd)
      exact PairPrecedes.total (by simpa using hne) (he d hd)
termination_by es => es.length
decreasing_by exact Nat.lt_succ_of_le (List.length_filter_le _ _)

end Pairs

namespace InterferenceIndex

open NumberedGraph LawfulNumberedGraph

variable {G : Type} [NumberedGraph G] {g : InterferenceIndex G} {f : Function}
variable {a b x y : String} {m n : Nat} {dropped : List String}

/-! ## Views of the edges -/

theorem edges_pairwise (g : InterferenceIndex G) : g.edges.Pairwise PairPrecedes := by
  have htrans : ∀ c d e : String × String, decide (¬PairPrecedes d c) = true →
      decide (¬PairPrecedes e d) = true → decide (¬PairPrecedes e c) = true := by
    intro c d e h k
    rw [decide_eq_true_eq] at h k ⊢
    intro hec
    by_cases hcd : c = d
    · exact k (hcd ▸ hec)
    · exact k (hec.trans (PairPrecedes.total (Ne.symm hcd) h))
  have htotal : ∀ d e : String × String,
      (decide (¬PairPrecedes e d) || decide (¬PairPrecedes d e)) = true := by
    intro d e
    rw [Bool.or_eq_true, decide_eq_true_eq, decide_eq_true_eq, ← not_and_or]
    rintro ⟨h, k⟩
    exact (h.trans k).irrefl
  exact pairwise_eraseDups ((List.pairwise_mergeSort htrans htotal _).imp of_decide_eq_true)

variable [LawfulNumberedGraph G]

theorem adjacent_comm (g : InterferenceIndex G) (m n : Nat) :
    adjacent g.graph m n = adjacent g.graph n m := by
  rw [Bool.eq_iff_iff, adjacent_iff_mem_edges, adjacent_iff_mem_edges]
  exact or_comm

theorem interferes_comm (g : InterferenceIndex G) (x y : String) :
    g.interferes x y = g.interferes y x := by
  rw [Bool.eq_iff_iff, interferes_iff, interferes_iff]
  constructor
  · rintro ⟨m, n, hm, hn, hmn⟩
    exact ⟨n, m, hn, hm, by rwa [adjacent_comm]⟩
  · rintro ⟨m, n, hm, hn, hmn⟩
    exact ⟨n, m, hn, hm, by rwa [adjacent_comm]⟩

theorem Consistent.mem_neighbors (h : g.Consistent) :
    y ∈ g.neighbors x ↔ g.interferes x y = true := by
  rw [neighbors, interferes_iff]
  cases hx : g.numbers.find? x with
  | none => simp
  | some m =>
      simp only [NameSet.mem_ofList, List.mem_filterMap, LawfulNumberedGraph.mem_neighbors]
      constructor
      · rintro ⟨n, hmn, hn⟩
        exact ⟨m, n, rfl, (h y n).2 hn, hmn⟩
      · rintro ⟨m', n, hm, hn, hmn⟩
        obtain rfl := Option.some.inj hm
        exact ⟨n, hmn, (h y n).1 hn⟩

/-- The edges are those pairs of names that interfere. -/
theorem Consistent.mem_edges_iff (h : g.Consistent) {e : String × String} :
    e ∈ g.edges ↔ ∃ x y, g.interferes x y = true ∧ e = orderedPair x y := by
  rw [edges, List.mem_eraseDups, List.mem_mergeSort, List.mem_filterMap]
  constructor
  · rintro ⟨⟨m, n⟩, hedge, hends⟩
    rw [ends?] at hends
    split at hends
    · next x y hx hy =>
        obtain rfl := Option.some.inj hends
        have hadjacent := adjacent_iff_mem_edges.2 (.inl hedge)
        exact ⟨x, y, interferes_iff.2 ⟨m, n, (h x m).2 hx, (h y n).2 hy, hadjacent⟩, rfl⟩
    · cases hends
  · rintro ⟨x, y, hxy, rfl⟩
    obtain ⟨m, n, hm, hn, hmn⟩ := interferes_iff.1 hxy
    rcases adjacent_iff_mem_edges.1 hmn with hedge | hedge
    · exact ⟨(m, n), hedge, by rw [ends?, (h x m).1 hm, (h y n).1 hn]⟩
    · refine ⟨(n, m), hedge, ?_⟩
      rw [ends?, (h x m).1 hm, (h y n).1 hn, orderedPair_comm x y]

theorem Consistent.orderedPair_mem_edges_iff (h : g.Consistent) :
    orderedPair x y ∈ g.edges ↔ g.interferes x y = true := by
  rw [h.mem_edges_iff]
  constructor
  · rintro ⟨a, b, hab, heq⟩
    rcases orderedPair_eq_iff.1 heq with ⟨rfl, rfl⟩ | ⟨rfl, rfl⟩
    · exact hab
    · rwa [interferes_comm]
  · exact fun hxy => ⟨x, y, hxy, rfl⟩

/-- The neighbours of a name make the edges that contain it. -/
theorem Consistent.degree_eq (h : g.Consistent) (x : String) :
    g.degree x = (g.edges.filter fun e => x = e.1 ∨ x = e.2).length := by
  have hperm : ((g.neighbors x).toList.map (orderedPair x)).Perm
      (g.edges.filter fun e => x = e.1 ∨ x = e.2) := by
    -- nothing comes twice in either list, so their members decide
    apply (List.perm_ext_iff_of_nodup _ (g.edges_pairwise.nodup.filter _)).2
    · intro e
      rw [List.mem_map, List.mem_filter, h.mem_edges_iff, decide_eq_true_eq]
      constructor
      · rintro ⟨y, hy, rfl⟩
        refine ⟨⟨x, y, h.mem_neighbors.1 hy, rfl⟩, ?_⟩
        rcases orderedPair_eq_or x y with heq | heq <;> simp [heq]
      · rintro ⟨⟨a, b, hab, rfl⟩, hx⟩
        have hends : x = a ∨ x = b := by
          rcases orderedPair_eq_or a b with heq | heq <;> rw [heq] at hx
          · exact hx
          · exact hx.symm
        rcases hends with rfl | rfl
        · exact ⟨b, h.mem_neighbors.2 hab, rfl⟩
        · exact ⟨a, h.mem_neighbors.2 (by rwa [interferes_comm]), orderedPair_comm x a⟩
    · refine (g.neighbors x).nodup_toList.map ?_
      intro a b hab
      rcases orderedPair_eq_iff.1 hab with ⟨-, rfl⟩ | ⟨rfl, rfl⟩ <;> rfl
  rw [← hperm.length_eq, List.length_map]
  rfl

/-- What is said of names in different ways agrees. -/
structure ViewsAgree (g : InterferenceIndex G) : Prop where
  mem_neighbors : ∀ x y, y ∈ g.neighbors x ↔ g.interferes x y = true
  interferes : ∀ x y, g.interferes x y = true ↔ orderedPair x y ∈ g.edges
  /-- The edges are in strictly increasing order, so that none comes twice. -/
  edges_sorted : g.edges.Pairwise PairPrecedes
  edges_ordered : ∀ e ∈ g.edges, orderedPair e.1 e.2 = e
  degree : ∀ x, g.degree x = (g.edges.filter fun e => x = e.1 ∨ x = e.2).length

theorem Consistent.viewsAgree (h : g.Consistent) : g.ViewsAgree where
  mem_neighbors _ _ := h.mem_neighbors
  interferes _ _ := h.orderedPair_mem_edges_iff.symm
  edges_sorted := g.edges_pairwise
  edges_ordered := by
    intro e he
    obtain ⟨x, y, -, rfl⟩ := h.mem_edges_iff.1 he
    rcases orderedPair_eq_or x y with heq | heq
    · rw [heq, heq]
    · rw [heq, orderedPair_comm, heq]
  degree := h.degree_eq

/-! ## Dropping names -/

omit [LawfulNumberedGraph G] in
theorem remove_of_some (h : g.numbers.find? x = some n) : g.remove x =
    ({ graph := removeNode g.graph n, numbers := g.numbers.erase x }, true) := by
  rw [remove, h]

omit [LawfulNumberedGraph G] in
theorem remove_of_none (h : g.numbers.find? x = none) : g.remove x = (g, false) := by
  rw [remove, h]

omit [LawfulNumberedGraph G] in
/-- Dropping a name tells whether the name was there. -/
theorem remove_eq_true_iff : (g.remove x).2 = true ↔ x ∈ g.names := by
  rw [mem_names_iff]
  cases hx : g.numbers.find? x with
  | none => simp [remove_of_none hx]
  | some n => simp [remove_of_some hx]

omit [LawfulNumberedGraph G] in
theorem find?_remove : (g.remove x).1.numbers.find? y =
    if y = x then none else g.numbers.find? y := by
  cases hx : g.numbers.find? x with
  | none =>
      rw [remove_of_none hx]
      by_cases hy : y = x
      · rw [if_pos hy, hy, hx]
      · rw [if_neg hy]
  | some n =>
      rw [remove_of_some hx]
      exact g.numbers.find?_erase

theorem Consistent.remove (h : g.Consistent) (x : String) : (g.remove x).1.Consistent := by
  cases hx : g.numbers.find? x with
  | none => rwa [remove_of_none hx]
  | some m =>
      rw [remove_of_some hx]
      intro y n
      change (g.numbers.erase x).find? y = some n ↔ text? (removeNode g.graph m) n = some y
      rw [NameTable.find?_erase, text?_removeNode]
      by_cases hy : y = x
      · by_cases hn : n = m
        · simp [hy, hn]
        · have hno : text? g.graph n ≠ some x := by
            rw [ne_eq, ← h, hx]
            simpa using Ne.symm hn
          simp [hy, hn, hno]
      · by_cases hn : n = m
        · -- no other name had the number of the node that is gone
          have hno : g.numbers.find? y ≠ some m := fun hm => hy ((h.eq_iff hm hx).1 rfl)
          simp [hy, hn, hno]
        · simp [hy, hn, h y n]

theorem interferes_remove (h : g.Consistent) : (g.remove x).1.interferes a b = true ↔
    g.interferes a b = true ∧ a ≠ x ∧ b ≠ x := by
  cases hx : g.numbers.find? x with
  | none =>
      rw [remove_of_none hx, interferes_iff]
      refine ⟨fun hab => ⟨hab, ?_⟩, And.left⟩
      obtain ⟨m, n, hm, hn, -⟩ := hab
      constructor
      · rintro rfl
        simp [hx] at hm
      · rintro rfl
        simp [hx] at hn
  | some k =>
      rw [remove_of_some hx, interferes_iff, interferes_iff]
      simp only [NameTable.find?_erase, adjacent_removeNode]
      constructor
      · rintro ⟨m, n, hm, hn, hmn, -⟩
        split at hm
        · cases hm
        · next ha =>
            split at hn
            · cases hn
            · next hb => exact ⟨⟨m, n, hm, hn, hmn⟩, ha, hb⟩
      · rintro ⟨⟨m, n, hm, hn, hmn⟩, ha, hb⟩
        refine ⟨m, n, by rw [if_neg ha, hm], by rw [if_neg hb, hn], hmn, ?_, ?_⟩
        · exact fun hmk => ha ((h.eq_iff hm hx).1 hmk)
        · exact fun hnk => hb ((h.eq_iff hn hx).1 hnk)

omit [LawfulNumberedGraph G] in
theorem names_remove : (g.remove x).1.names = g.names.erase x := by
  refine NameSet.ext fun y => ?_
  rw [mem_names_iff, find?_remove, NameSet.mem_erase, mem_names_iff]
  by_cases hy : y = x <;> simp [hy]

/-- Drop names one after the other. -/
def removeAll (g : InterferenceIndex G) (dropped : List String) : InterferenceIndex G :=
  dropped.foldl (fun g x => (g.remove x).1) g

variable {dropped : List String}

theorem Consistent.removeAll (h : g.Consistent) (dropped : List String) :
    (g.removeAll dropped).Consistent := by
  induction dropped generalizing g with
  | nil => exact h
  | cons x dropped ih => exact ih (h.remove x)

omit [LawfulNumberedGraph G] in
theorem mem_names_removeAll : x ∈ (g.removeAll dropped).names ↔ x ∈ g.names ∧ x ∉ dropped := by
  induction dropped generalizing g with
  | nil => simp [removeAll]
  | cons y dropped ih =>
      rw [removeAll, List.foldl_cons, ← removeAll, ih, names_remove, NameSet.mem_erase,
        List.mem_cons, not_or, and_assoc]

theorem interferes_removeAll (h : g.Consistent) :
    (g.removeAll dropped).interferes x y = true ↔
      g.interferes x y = true ∧ x ∉ dropped ∧ y ∉ dropped := by
  induction dropped generalizing g with
  | nil => simp [removeAll]
  | cons z dropped ih =>
      rw [removeAll, List.foldl_cons, ← removeAll, ih (h.remove z), interferes_remove h,
        List.mem_cons, List.mem_cons, not_or, not_or]
      constructor
      · rintro ⟨⟨hxy, hx, hy⟩, hx', hy'⟩
        exact ⟨hxy, ⟨hx, hx'⟩, hy, hy'⟩
      · rintro ⟨hxy, ⟨hx, hx'⟩, hy, hy'⟩
        exact ⟨⟨hxy, hx, hy⟩, hx', hy'⟩

/-- Everything said of names is what the second index says of them, with some names left out. -/
structure InducedBy (g' g : InterferenceIndex G) (dropped : List String) : Prop where
  names : g'.names = g.names.filter (· ∉ dropped)
  contains : ∀ x, g'.contains x = (g.contains x && x ∉ dropped)
  size : g'.size = (g.names.filter (· ∉ dropped)).size
  isEmpty : g'.isEmpty = true ↔ ∀ x ∈ g.names, x ∈ dropped
  interferes : ∀ x y, g'.interferes x y = (g.interferes x y && (x ∉ dropped ∧ y ∉ dropped))
  neighbors : ∀ x, g'.neighbors x =
    if x ∈ dropped then ∅ else (g.neighbors x).filter (· ∉ dropped)
  degree : ∀ x, g'.degree x =
    if x ∈ dropped then 0 else ((g.neighbors x).filter (· ∉ dropped)).size
  edges : g'.edges = g.edges.filter fun e => e.1 ∉ dropped ∧ e.2 ∉ dropped

omit [NumberedGraph G] [LawfulNumberedGraph G] in
theorem contains_iff : g.contains x = true ↔ x ∈ g.names :=
  NameTable.mem_names.symm

omit [NumberedGraph G] [LawfulNumberedGraph G] in
theorem isEmpty_iff : g.isEmpty = true ↔ ∀ x, x ∉ g.names := by
  rw [isEmpty, List.isEmpty_iff]
  constructor
  · intro h x hx
    obtain ⟨entry, hentry, -⟩ := List.mem_map.1 hx
    rw [h] at hentry
    cases hentry
  · intro h
    apply List.eq_nil_iff_forall_not_mem.2
    intro entry hentry
    exact h entry.1 (List.mem_map_of_mem hentry)

omit [LawfulNumberedGraph G] in
theorem names_removeAll : (g.removeAll dropped).names = g.names.filter (· ∉ dropped) :=
  NameSet.ext fun x => by simp [mem_names_removeAll]

theorem Consistent.neighbors_removeAll (h : g.Consistent) (x : String) :
    (g.removeAll dropped).neighbors x =
      if x ∈ dropped then ∅ else (g.neighbors x).filter (· ∉ dropped) := by
  refine NameSet.ext fun y => ?_
  rw [(h.removeAll dropped).mem_neighbors, interferes_removeAll h]
  by_cases hx : x ∈ dropped
  · simp [hx]
  · simp [hx, h.mem_neighbors]

theorem Consistent.edges_removeAll (h : g.Consistent) :
    (g.removeAll dropped).edges = g.edges.filter fun e => e.1 ∉ dropped ∧ e.2 ∉ dropped := by
  apply (edges_pairwise _).eq_of_mem_iff (g.edges_pairwise.filter _)
  intro e
  rw [(h.removeAll dropped).mem_edges_iff, List.mem_filter, h.mem_edges_iff, decide_eq_true_eq]
  have hends : ∀ x y, ((orderedPair x y).1 ∉ dropped ∧ (orderedPair x y).2 ∉ dropped) ↔
      x ∉ dropped ∧ y ∉ dropped := by
    intro x y
    rcases orderedPair_eq_or x y with heq | heq
    · rw [heq]
    · rw [heq, and_comm]
  constructor
  · rintro ⟨x, y, hxy, rfl⟩
    obtain ⟨hxy, hdropped⟩ := (interferes_removeAll h).1 hxy
    exact ⟨⟨x, y, hxy, rfl⟩, (hends x y).2 hdropped⟩
  · rintro ⟨⟨x, y, hxy, rfl⟩, hdropped⟩
    exact ⟨x, y, (interferes_removeAll h).2 ⟨hxy, (hends x y).1 hdropped⟩, rfl⟩

theorem Consistent.inducedBy_removeAll (h : g.Consistent) (dropped : List String) :
    (g.removeAll dropped).InducedBy g dropped where
  names := names_removeAll
  contains x := by
    rw [Bool.eq_iff_iff, contains_iff, mem_names_removeAll, Bool.and_eq_true, contains_iff,
      decide_eq_true_eq]
  size := by rw [← names_removeAll, names, NameTable.size_names, size]
  isEmpty := by
    rw [isEmpty_iff]
    simp only [mem_names_removeAll, not_and, not_not]
  interferes x y := by
    rw [Bool.eq_iff_iff, interferes_removeAll h, Bool.and_eq_true, decide_eq_true_eq]
  neighbors := h.neighbors_removeAll
  degree x := by
    rw [degree, h.neighbors_removeAll]
    split <;> rfl
  edges := h.edges_removeAll

/-- Dropping names tells of each whether it was still there. What is left says of names what the
index of the function says, as if the dropped ones were not there, and all its views agree. -/
theorem removeAll_induces_subgraph (h : ofFunction f = .ok g) (dropped : List String) :
    (∀ x, ((g.removeAll dropped).remove x).2 = (g.removeAll dropped).contains x) ∧
      (g.removeAll dropped).InducedBy g dropped ∧ (g.removeAll dropped).ViewsAgree := by
  have hg := consistent_ofFunction h
  refine ⟨fun x => ?_, hg.inducedBy_removeAll dropped, (hg.removeAll dropped).viewsAgree⟩
  rw [Bool.eq_iff_iff, remove_eq_true_iff, contains_iff]

/-- The index of `sumBetween`. -/
def sumIndex : InterferenceIndex ListedGraph where
  graph :=
    { texts := ["first", "last", "i", "next", "s", "t", "more"].map some
      links :=
        [(2, 0), (2, 1), (2, 5), (4, 0), (4, 2), (4, 1), (5, 0), (5, 1), (3, 0), (3, 1), (3, 5),
          (6, 0), (6, 1), (6, 3), (6, 5), (0, 1)]
      inside := by decide }
  numbers :=
    { entries :=
        [("first", 0), ("i", 2), ("last", 1), ("more", 6), ("next", 3), ("s", 4), ("t", 5)]
      sorted := by decide }

theorem ofFunction_sumIndex : ofFunction InterferenceGraph.sumBetween = .ok sumIndex := by
  decide +kernel

theorem removeAll_induces_subgraph_sumIndex :
    ((sumIndex.removeAll ["t", "nowhere", "more"]).remove "t").2 = false ∧
      (sumIndex.removeAll ["t", "nowhere", "more"]).degree "next" = 2 ∧
        ("last", "next") ∈ (sumIndex.removeAll ["t", "nowhere", "more"]).edges := by
  obtain ⟨hremove, hinduced, hviews⟩ :=
    removeAll_induces_subgraph ofFunction_sumIndex ["t", "nowhere", "more"]
  refine ⟨?_, ?_, ?_⟩
  · rw [hremove, hinduced.contains]
    decide +kernel
  · rw [hinduced.degree]
    decide +kernel
  · refine (hviews.interferes "last" "next").1 ?_
    rw [hinduced.interferes]
    decide +kernel

end InterferenceIndex

end SsaIr
