import SsaIr.Proofs.Coloring.DenseCore
import SsaIr.Proofs.Coloring.Valid
import SsaIr.Proofs.Interference.Refinement

/-!
# Colouring an index

Main statement: an index is coloured as the interference graph that it represents. Both drop the
same names in the same order, the one onto a stack and the other into a list, and give them the same
colours on the way back. So what is known of the colours of interference graphs holds for the index
of a function, whatever names are dropped from it first.
-/

namespace SsaIr

namespace NameTable

variable {α : Type}

theorem find?_of_mem {t : NameTable α} {entry : String × α} (h : entry ∈ t.entries) :
    t.find? entry.1 = some entry.2 := by
  obtain ⟨front, back, hsplit⟩ := List.append_of_mem h
  refine List.lookup_eq_some_iff.2 ⟨front, back, hsplit, fun other hother => ?_⟩
  have hsorted := t.sorted
  rw [hsplit, List.map_append, List.pairwise_append] at hsorted
  have hlt := hsorted.2.2 other.1 (List.mem_map_of_mem hother) entry.1 List.mem_cons_self
  rw [bne_iff_ne]
  intro heq
  exact (heq ▸ hlt).irrefl

/-- A table is told by what its names find in it. -/
theorem filterMap_find? (t : NameTable α) :
    (t.names.toList.filterMap fun name => (t.find? name).map fun a => (name, a)) = t.entries := by
  calc t.names.toList.filterMap (fun name => (t.find? name).map fun a => (name, a))
      = t.entries.filterMap fun entry => (t.find? entry.1).map fun a => (entry.1, a) :=
        List.filterMap_map
    _ = t.entries.filterMap some :=
        List.filterMap_congr fun entry hentry => by rw [find?_of_mem hentry]; rfl
    _ = t.entries := List.filterMap_some

end NameTable

namespace InterferenceIndex

variable {G : Type} [NumberedGraph G] {g g₀ : InterferenceIndex G} {graph : InterferenceGraph}
variable {f : Function} {l : Liveness} {c : InstructionGraph} {p : Position} {k : Nat}
variable {x y name : String} {order stack dropped : List String} {s : NameSet}
variable {colors : NameTable Nat}

/-! ## The same colours -/

theorem simplify?_of_some (hname : g.simplifiable? k = some name) :
    g.simplify? k stack = (g.remove name).1.simplify? k (name :: stack) := by
  have hmem : name ∈ g.names := List.mem_of_find?_eq_some hname
  rw [simplify?, if_neg fun hempty => isEmpty_iff.1 hempty name hmem]
  split
  · next other hother =>
      obtain rfl := Option.some.inj (hname.symm.trans hother)
      rfl
  · next hnone =>
      rw [hname] at hnone
      cases hnone

theorem simplify?_of_none (hnone : g.simplifiable? k = none) :
    g.simplify? k stack = if g.isEmpty = true then some stack else none := by
  rw [simplify?]
  split
  · rfl
  · split
    · next other hother =>
        rw [hnone] at hother
        cases hother
    · rfl

theorem Represents.isEmpty_iff (h : g.Represents graph) :
    g.isEmpty = true ↔ graph.names = ∅ := by
  rw [InterferenceIndex.isEmpty_iff, h.names, NameSet.eq_empty_iff]

variable [LawfulNumberedGraph G]

theorem Represents.simplifiable? (h : g.Represents graph) (hg : g.Consistent) (k : Nat) :
    g.simplifiable? k = graph.simplifiable? k := by
  have hdegree : g.degree = graph.degree := funext (h.degree hg)
  rw [InterferenceIndex.simplifiable?, InterferenceGraph.simplifiable?, h.names, hdegree]

/-- What is put on the stack is the order in which the graph drops its names, last name first. -/
theorem Represents.simplify? (h : g.Represents graph) (hg : g.Consistent) (k : Nat)
    (stack : List String) : g.simplify? k stack =
      (graph.simplificationOrder? k).map fun order => order.reverse ++ stack := by
  fun_induction InterferenceGraph.simplificationOrder? k graph generalizing g stack with
  | case1 graph name hname ih =>
      rw [simplify?_of_some ((h.simplifiable? hg k).trans hname),
        ih (h.remove hg name) (hg.remove name), Option.map_map]
      congr 1
      funext order
      simp
  | case2 graph hnone hempty =>
      rw [simplify?_of_none ((h.simplifiable? hg k).trans hnone), if_pos (h.isEmpty_iff.2 hempty)]
      rfl
  | case3 graph hnone hnames =>
      rw [simplify?_of_none ((h.simplifiable? hg k).trans hnone),
        if_neg (mt h.isEmpty_iff.1 hnames)]
      rfl

/-- The colours in the table are those in the list. -/
theorem Represents.find?_foldr_assign (h : g.Represents graph) (hg : g.Consistent)
    (order : List String) (x : String) :
    (order.foldr (fun name colors => g.assign colors name) ∅).find? x =
      (order.foldr graph.assign []).lookup x := by
  induction order generalizing x with
  | nil => rfl
  | cons name order ih =>
      -- a name is given the same colour, since its neighbours have the same colours so far
      rw [List.foldr_cons, List.foldr_cons, assign, NameTable.find?_insert,
        InterferenceGraph.assign, NameTable.lookup_cons, h.neighbors hg, funext ih]

/-- An index is coloured as the interference graph that it represents. -/
theorem Represents.color? (h : g.Represents graph) (hg : g.Consistent) (k : Nat) :
    (g.color? k).map NameTable.entries = graph.color? k := by
  rw [InterferenceIndex.color?, h.simplify? hg, InterferenceGraph.color?, Option.map_map,
    Option.map_map]
  refine Option.map_congr fun order horder => ?_
  have hcolors := h.find?_foldr_assign hg order
  have hnames : (order.foldr (fun name colors => g.assign colors name) ∅).names = graph.names := by
    refine NameSet.ext fun x => ?_
    rw [NameTable.mem_names, hcolors, ← InterferenceGraph.mem_simplificationOrder horder]
    exact ⟨InterferenceGraph.mem_of_isSome_lookup, InterferenceGraph.isSome_lookup_foldr_assign⟩
  rw [Function.comp_apply, Function.comp_apply, List.append_nil, List.foldl_reverse,
    ← NameTable.filterMap_find?, hnames, funext hcolors]

theorem Represents.color?_eq_some (h : g.Represents graph) (hg : g.Consistent)
    (hcolors : g.color? k = some colors) : graph.color? k = some colors.entries := by
  rw [← h.color? hg, hcolors, Option.map_some]

theorem Represents.isSome_color? (h : g.Represents graph) (hg : g.Consistent) (k : Nat) :
    (g.color? k).isSome = (graph.color? k).isSome := by
  rw [← h.color? hg, Option.isSome_map]

theorem Represents.color?_eq_none_iff (h : g.Represents graph) (hg : g.Consistent) (k : Nat) :
    g.color? k = none ↔ graph.color? k = none := by
  rw [← h.color? hg, Option.map_eq_none_iff]

/-- Whatever names are dropped, the index of a function and its interference graph are coloured
alike. -/
theorem color?_removeAll (h : ofFunction f = .ok g) (dropped : List String) :
    ∃ graph, InterferenceGraph.ofFunction f = .ok graph ∧ ∀ k,
      ((g.removeAll dropped).color? k).map NameTable.entries =
        (graph.removeAll dropped).color? k := by
  obtain ⟨graph, hgraph, hleft⟩ := exists_represents_removeAll h dropped
  exact ⟨graph, hgraph, hleft.color? ((consistent_ofFunction h).removeAll dropped)⟩

/-! ## Valid colourings -/

theorem Represents.exists_colors_of_interferes (h : g.Represents graph) (hg : g.Consistent)
    (hself : ∀ x, graph.interferes x x = false) (hcolors : g.color? k = some colors)
    (hxy : g.interferes x y = true) :
    ∃ a b, colors.find? x = some a ∧ colors.find? y = some b ∧ a ≠ b := by
  have hcomm : ∀ x y, graph.interferes x y = graph.interferes y x := by
    intro x y
    rw [← h.interferes, ← h.interferes, g.interferes_comm]
  rw [h.interferes] at hxy
  exact InterferenceGraph.exists_colors_of_interferes hcomm hself (h.color?_eq_some hg hcolors) hxy

/-- A colouring of what removals have left of the index of a function colours the names that are
left, with colours below `k`, and names that interfere differently. -/
theorem color?_valid (h : ofFunction f = .ok g₀) (hg : g₀.removeAll dropped = g)
    (hcolors : g.color? k = some colors) :
    colors.names = g.names ∧ (∀ p ∈ colors.entries, p.2 < k) ∧
      ∀ x y, g.interferes x y = true →
        ∃ a b, colors.find? x = some a ∧ colors.find? y = some b ∧ a ≠ b := by
  subst hg
  obtain ⟨graph, hgraph, hleft⟩ := exists_represents_removeAll h dropped
  have hg := (consistent_ofFunction h).removeAll dropped
  have hself := InterferenceGraph.interferes_self_removeAll hgraph dropped
  have hlist := hleft.color?_eq_some hg hcolors
  have hnames : colors.names.toList = (g₀.removeAll dropped).names.toList := by
    rw [hleft.names]
    exact InterferenceGraph.map_fst_of_color? hlist
  refine ⟨NameSet.ext fun x => ?_, InterferenceGraph.lt_of_color? hlist,
    fun x y => hleft.exists_colors_of_interferes hg hself hcolors⟩
  rw [← NameSet.mem_toList, hnames, NameSet.mem_toList]

/-- Two names that are live together, before or after an instruction that control can come to,
interfere in the index, and every colouring gives them different colours. Only parameters may be
live at the entry. -/
theorem live_together_differ (hl : Liveness.ofFunction f = .ok l)
    (hc : InstructionGraph.ofFunction f = .ok c) (h : ofFunction f = .ok g)
    (hentry : ∀ x ∈ l.entryLive, f.isParameter x = true) (hp : p ∈ c.reachable) (hne : x ≠ y)
    (hlive : l.LiveBefore p x ∧ l.LiveBefore p y ∨ l.LiveAfter p x ∧ l.LiveAfter p y) :
    g.interferes x y = true ∧ ∀ k colors, g.color? k = some colors →
      ∃ a b, colors.find? x = some a ∧ colors.find? y = some b ∧ a ≠ b := by
  have hg := consistent_ofFunction h
  obtain ⟨l, hl', rfl⟩ := ofFunction_eq_ok_iff.1 h
  obtain rfl := Except.ok.inj (hl'.symm.trans hl)
  have hrepresents : (ofLiveness f l : InterferenceIndex G).Represents (.ofLiveness f l) :=
    represents_ofLiveness hl
  have hxy : (ofLiveness f l : InterferenceIndex G).interferes x y = true := by
    rw [hrepresents.interferes]
    exact InterferenceGraph.interferes_of_live_together hl hc hentry hp hne hlive
  exact ⟨hxy, fun k colors hcolors => hrepresents.exists_colors_of_interferes hg
    InterferenceGraph.interferes_self_ofLiveness hcolors hxy⟩

/-! ## When colouring fails -/

/-- The names can be dropped in this order: each is there, with fewer than `k` neighbours left, when
its turn comes. -/
def Simplifies (k : Nat) : InterferenceIndex G → List String → Prop
  | _, [] => True
  | g, name :: order => name ∈ g.names ∧ g.degree name < k ∧ Simplifies k (g.remove name).1 order

/-- No name that is there has fewer than `k` neighbours. -/
def Stuck (k : Nat) (g : InterferenceIndex G) : Prop := ∀ x ∈ g.names, k ≤ g.degree x

/-- Every name of the set has at least `k` neighbours in the set. -/
def Dense (g : InterferenceIndex G) (k : Nat) (s : NameSet) : Prop :=
  ∀ x ∈ s, x ∈ g.names ∧ k ≤ ((g.neighbors x).filter (· ∈ s)).size

theorem Represents.stuck_iff (h : g.Represents graph) (hg : g.Consistent) :
    g.Stuck k ↔ graph.Stuck k := by
  simp only [Stuck, InterferenceGraph.Stuck, h.names, h.degree hg]

theorem Represents.dense_iff (h : g.Represents graph) (hg : g.Consistent) :
    g.Dense k s ↔ graph.Dense k s := by
  simp only [Dense, InterferenceGraph.Dense, InterferenceGraph.degreeWithin, h.names,
    h.neighbors hg]

/-- The index and the graph can drop their names in the same orders. -/
theorem Represents.simplifies_iff (h : g.Represents graph) (hg : g.Consistent)
    {graph' : InterferenceGraph} : InterferenceGraph.Simplifies k graph order graph' ↔
      g.Simplifies k order ∧ graph' = graph.removeAll order := by
  induction order generalizing g graph with
  | nil =>
      constructor
      · rintro ⟨⟩
        exact ⟨trivial, rfl⟩
      · rintro ⟨-, rfl⟩
        exact .done _
  | cons name order ih =>
      rw [Simplifies, h.names, h.degree hg, and_assoc, and_assoc]
      constructor
      · rintro (_ | ⟨hname, hdegree, hrun⟩)
        exact ⟨hname, hdegree, (ih (h.remove hg name) (hg.remove name)).1 hrun⟩
      · rintro ⟨hname, hdegree, hrun⟩
        exact .drop hname hdegree ((ih (h.remove hg name) (hg.remove name)).2 hrun)

/-- Colouring the index of a function with `k` colours, after any removals, fails exactly if there
is a dense core. The names can be dropped until none has fewer than `k` neighbours, and no order of
that kind lists a name twice. Whatever the order, the names left in the end are the members of dense
sets, and none are left exactly if colouring succeeds. It succeeds with one more colour if it does
with `k`, and with as many as there are names. -/
theorem color?_fails_on_dense_core (h : ofFunction f = .ok g₀) (hg : g₀.removeAll dropped = g) :
    (∀ k, g.color? k = none ↔ ∃ s, (∃ x, x ∈ s) ∧ g.Dense k s) ∧
    (∀ k, (∃ order, g.Simplifies k order ∧ (g.removeAll order).Stuck k) ∧
      ∀ order, g.Simplifies k order → order.length + (g.removeAll order).size = g.size ∧
        ((g.removeAll order).Stuck k →
          (∀ x, x ∈ (g.removeAll order).names ↔ ∃ s, g.Dense k s ∧ x ∈ s) ∧
            ((g.removeAll order).names = ∅ ↔ (g.color? k).isSome))) ∧
    (∀ k, (g.color? k).isSome → (g.color? (k + 1)).isSome) ∧ (g.color? g.size).isSome := by
  obtain ⟨graph, hgraph, hrepresents⟩ := exists_represents_removeAll h dropped
  have hconsistent := (consistent_ofFunction h).removeAll dropped
  have hself := InterferenceGraph.interferes_self_removeAll hgraph dropped
  rw [hg] at hrepresents hconsistent
  generalize graph.removeAll dropped = graph at hrepresents hself
  have hsome := hrepresents.isSome_color? hconsistent
  simp only [hrepresents.color?_eq_none_iff hconsistent, hrepresents.dense_iff hconsistent, hsome,
    hrepresents.size]
  refine ⟨fun k => InterferenceGraph.color?_eq_none_iff, fun k => ⟨?_, fun order hrun => ?_⟩,
    fun k => InterferenceGraph.color?_isSome_succ, InterferenceGraph.color?_isSome_size hself⟩
  · obtain ⟨order, graph', hrun, hstuck, -⟩ := InterferenceGraph.exists_simplifies k graph
    obtain ⟨hown, rfl⟩ := (hrepresents.simplifies_iff hconsistent).1 hrun
    have hleft := hrepresents.removeAll hconsistent order
    exact ⟨order, hown, (hleft.stuck_iff (hconsistent.removeAll order)).2 hstuck⟩
  · have hrun := (hrepresents.simplifies_iff hconsistent).2 ⟨hrun, rfl⟩
    have hleft := hrepresents.removeAll hconsistent order
    rw [hleft.size, hleft.names, hleft.stuck_iff (hconsistent.removeAll order)]
    exact ⟨hrun.length_add_size, fun hstuck =>
      ⟨fun x => hrun.mem_names_iff hstuck, hrun.names_eq_empty_iff hstuck⟩⟩

end InterferenceIndex

end SsaIr
