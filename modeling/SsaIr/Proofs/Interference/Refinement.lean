import SsaIr.Proofs.Interference.Removal
import SsaIr.Proofs.Interference.Views

/-!
# The index of a function and its interference graph

The index that is kept in a table and a graph of nodes says of names what the interference graph
says, and goes on to do so while names are dropped from both.
-/

namespace SsaIr

namespace InterferenceGraph

variable {g : InterferenceGraph} {x y : String}

theorem interferes_iff_mem_neighbors : g.interferes x y = true ↔ y ∈ g.neighbors x :=
  decide_eq_true_iff

theorem mem_edges_iff {e : String × String} :
    e ∈ g.edges ↔ Precedes e.1 e.2 ∧ g.interferes e.1 e.2 = true := by
  rw [edges, List.mem_flatMap, interferes_iff_mem_neighbors]
  constructor
  · rintro ⟨x, -, he⟩
    obtain ⟨y, hy, rfl⟩ := List.mem_map.1 he
    obtain ⟨hy, hlt⟩ := List.mem_filter.1 hy
    exact ⟨of_decide_eq_true hlt, hy⟩
  · rintro ⟨hlt, hy⟩
    refine ⟨e.1, (mem_neighbors_iff.1 hy).1, List.mem_map.2 ⟨e.2, ?_, rfl⟩⟩
    exact List.mem_filter.2 ⟨hy, decide_eq_true hlt⟩

theorem edges_pairwise (g : InterferenceGraph) : g.edges.Pairwise PairPrecedes := by
  rw [edges, List.pairwise_flatMap]
  constructor
  · intro x _
    rw [List.pairwise_map]
    exact ((g.neighbors x).sorted.filter _).imp fun h => .inr ⟨rfl, h⟩
  · refine g.names.sorted.imp fun hlt d hd e he => ?_
    obtain ⟨-, -, rfl⟩ := List.mem_map.1 hd
    obtain ⟨-, -, rfl⟩ := List.mem_map.1 he
    exact .inl hlt

end InterferenceGraph

namespace InterferenceIndex

open NumberedGraph LawfulNumberedGraph

variable {G : Type} [NumberedGraph G] {g : InterferenceIndex G}
variable {graph : InterferenceGraph} {f : Function} {l : Liveness} {x y : String}

/-- The index says of names what the interference graph says. -/
structure Represents (g : InterferenceIndex G) (graph : InterferenceGraph) : Prop where
  names : g.names = graph.names
  interferes : ∀ x y, g.interferes x y = graph.interferes x y

variable [LawfulNumberedGraph G]

theorem represents_ofLiveness (hl : Liveness.ofFunction f = .ok l) :
    (ofLiveness f l : InterferenceIndex G).Represents (.ofLiveness f l) := by
  have hinterferes : ∀ x y, (ofLiveness f l : InterferenceIndex G).interferes x y = true ↔
      (InterferenceGraph.ofLiveness f l).interferes x y = true := by
    intro x y
    rw [interferes_ofLiveness_iff, InterferenceGraph.interferes_iff_clash hl,
      InterferenceGraph.clash_iff, mem_definitionPairs, mem_definitionPairs, mem_parameterPairs]
    have hparameter : ∀ x, x ∈ f.parameterNames ↔ f.isParameter x = true := by
      simp [Function.isParameter]
    simp only [hparameter, exists_or, ne_comm (a := y), ← and_or_left]
  refine ⟨NameSet.ext fun x => ?_, fun x y => Bool.eq_iff_iff.2 (hinterferes x y)⟩
  have hmentioned : x ∈ mentioned f ↔ x ∈ (InterferenceGraph.ofLiveness f l).names :=
    NameSet.mem_ofList.symm
  rw [ofLiveness, mem_names_foldl_addEdge, mem_names_foldl_addName, hmentioned]
  constructor
  · rintro (⟨pair, hpair, hx⟩ | h | h)
    · have hedge : (ofLiveness f l : InterferenceIndex G).interferes pair.1 pair.2 = true := by
        rw [interferes_ofLiveness_iff]
        exact (List.mem_append.1 hpair).imp .inl .inl
      obtain ⟨h₁, h₂, -⟩ := InterferenceGraph.interferes_ofLiveness.1 ((hinterferes _ _).1 hedge)
      rcases hx with rfl | rfl
      · exact h₁
      · exact h₂
    · exact h
    · cases h
  · exact fun h => .inr (.inl h)

/-- The index of a function and its interference graph come about together, and they agree. -/
theorem represents_ofFunction (h : ofFunction f = .ok g) :
    ∃ graph, InterferenceGraph.ofFunction f = .ok graph ∧ g.Represents graph := by
  obtain ⟨l, hl, rfl⟩ := ofFunction_eq_ok_iff.1 h
  exact ⟨_, InterferenceGraph.ofFunction_eq_ok_iff.2 ⟨l, hl, rfl⟩, represents_ofLiveness hl⟩

theorem Represents.remove (h : g.Represents graph) (hg : g.Consistent) (x : String) :
    (g.remove x).1.Represents (graph.remove x) where
  names := by
    rw [names_remove, h.names]
    rfl
  interferes a b := by
    rw [Bool.eq_iff_iff, interferes_remove hg, h.interferes,
      (InterferenceGraph.induced_remove graph x).interferes_iff]
    have hnames : ∀ a, a ∈ (graph.remove x).names ↔ a ∈ graph.names ∧ a ≠ x := fun _ =>
      NameSet.mem_erase
    rw [hnames, hnames]
    constructor
    · rintro ⟨hab, ha, hb⟩
      have hneighbor := InterferenceGraph.interferes_iff_mem_neighbors.1 hab
      obtain ⟨ha', hb', -⟩ := InterferenceGraph.mem_neighbors_iff.1 hneighbor
      exact ⟨⟨ha', ha⟩, ⟨hb', hb⟩, hab⟩
    · rintro ⟨⟨-, ha⟩, ⟨-, hb⟩, hab⟩
      exact ⟨hab, ha, hb⟩

theorem Represents.removeAll (h : g.Represents graph) (hg : g.Consistent) (dropped : List String) :
    (g.removeAll dropped).Represents (graph.removeAll dropped) := by
  induction dropped generalizing g graph with
  | nil => exact h
  | cons x dropped ih => exact ih (h.remove hg x) (hg.remove x)

theorem Represents.neighbors (h : g.Represents graph) (hg : g.Consistent) (x : String) :
    g.neighbors x = graph.neighbors x := by
  refine NameSet.ext fun y => ?_
  rw [hg.mem_neighbors, h.interferes, InterferenceGraph.interferes_iff_mem_neighbors]

theorem Represents.degree (h : g.Represents graph) (hg : g.Consistent) (x : String) :
    g.degree x = graph.degree x :=
  congrArg NameSet.size (h.neighbors hg x)

theorem Represents.edges (h : g.Represents graph) (hg : g.Consistent)
    (hself : ∀ x, graph.interferes x x = false) : g.edges = graph.edges := by
  apply g.edges_pairwise.eq_of_mem_iff graph.edges_pairwise
  intro e
  rw [InterferenceGraph.mem_edges_iff, ← h.interferes]
  constructor
  · intro he
    have hordered := hg.viewsAgree.edges_ordered e he
    have hedge : g.interferes e.1 e.2 = true := by
      rwa [← hg.orderedPair_mem_edges_iff, hordered]
    have hne : e.2 ≠ e.1 := by
      intro heq
      rw [heq, h.interferes, hself] at hedge
      cases hedge
    refine ⟨Precedes.total hne fun hlt => ?_, hedge⟩
    rw [orderedPair, if_pos hlt] at hordered
    exact hne (congrArg Prod.fst hordered)
  · rintro ⟨hlt, hedge⟩
    rwa [← hg.orderedPair_mem_edges_iff, orderedPair, if_neg fun k => (hlt.trans k).irrefl] at hedge

omit [LawfulNumberedGraph G] in
theorem Represents.size (h : g.Represents graph) : g.size = graph.size := by
  rw [InterferenceIndex.size, ← NameTable.size_names]
  exact congrArg NameSet.size h.names

theorem exists_represents_removeAll (h : ofFunction f = .ok g) (dropped : List String) :
    ∃ graph, InterferenceGraph.ofFunction f = .ok graph ∧
      (g.removeAll dropped).Represents (graph.removeAll dropped) := by
  obtain ⟨graph, hgraph, hrepresents⟩ := represents_ofFunction h
  exact ⟨graph, hgraph, hrepresents.removeAll (consistent_ofFunction h) dropped⟩

/-- Whatever names are dropped, the index of a function and its interference graph show the same. -/
theorem views_removeAll (h : ofFunction f = .ok g) (dropped : List String) :
    ∃ graph, InterferenceGraph.ofFunction f = .ok graph ∧
      (g.removeAll dropped).names = (graph.removeAll dropped).names ∧
      (g.removeAll dropped).size = (graph.removeAll dropped).size ∧
      (g.removeAll dropped).edges = (graph.removeAll dropped).edges ∧
      ∀ x, (g.removeAll dropped).neighbors x = (graph.removeAll dropped).neighbors x ∧
        (g.removeAll dropped).degree x = (graph.removeAll dropped).degree x ∧
        ∀ y, (g.removeAll dropped).interferes x y = (graph.removeAll dropped).interferes x y := by
  obtain ⟨graph, hgraph, hleft⟩ := exists_represents_removeAll h dropped
  have hg := (consistent_ofFunction h).removeAll dropped
  have hself := InterferenceGraph.interferes_self_removeAll hgraph dropped
  exact ⟨graph, hgraph, hleft.names, hleft.size, hleft.edges hg hself, fun x =>
    ⟨hleft.neighbors hg x, hleft.degree hg x, hleft.interferes x⟩⟩

/-- The names in the index of a function are those that it mentions, and two of them interfere
exactly if they differ and one is defined where the other is live, where parameters count as defined
at the entry, all at once. -/
theorem index_is_exact (h : ofFunction f = .ok g) :
    ∃ l, Liveness.ofFunction f = .ok l ∧
      (∀ x, x ∈ g.names ↔
        f.isParameter x = true ∨ ∃ p, x ∈ f.definesAt p ∨ x ∈ f.usesAt p) ∧
      (∀ x y, g.interferes x y = true ↔ x ≠ y ∧
        ((∃ p, x ∈ f.definesAt p ∧ l.LiveAfter p y ∨ y ∈ f.definesAt p ∧ l.LiveAfter p x) ∨
          f.isParameter x = true ∧ f.isParameter y = true ∨
          f.isParameter x = true ∧ y ∈ l.entryLive ∨ f.isParameter y = true ∧ x ∈ l.entryLive)) ∧
      (∀ x y, g.interferes x y = g.interferes y x) ∧ ∀ x, g.interferes x x = false := by
  obtain ⟨l, hl, rfl⟩ := ofFunction_eq_ok_iff.1 h
  have hrepresents : (ofLiveness f l : InterferenceIndex G).Represents (.ofLiveness f l) :=
    represents_ofLiveness hl
  refine ⟨l, hl, fun x => ?_, fun x y => ?_, interferes_comm _, fun x => ?_⟩
  · rw [hrepresents.names, InterferenceGraph.mem_names_ofLiveness]
  · rw [hrepresents.interferes, InterferenceGraph.interferes_iff_clash hl,
      InterferenceGraph.clash_iff]
  · rw [hrepresents.interferes, InterferenceGraph.interferes_self_ofLiveness]

end InterferenceIndex

end SsaIr
