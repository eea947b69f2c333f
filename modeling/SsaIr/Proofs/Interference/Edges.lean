import SsaIr.Proofs.Interference

/-!
# The edges of the interference graph

Main statement: the names of the graph are those that a function mentions, and two of them
interfere exactly if they differ and one is defined where the other is live, where parameters count
as defined at the entry, all at once.
-/

namespace SsaIr

namespace InterferenceGraph

variable {f : Function} {l : Liveness} {g : InterferenceGraph} {p : Position} {x y : String}

theorem mem_names_of_parameter (h : f.isParameter x = true) : x ∈ (ofLiveness f l).names :=
  mem_names_ofLiveness.2 (.inl h)

theorem mem_names_of_definesAt (h : x ∈ f.definesAt p) : x ∈ (ofLiveness f l).names :=
  mem_names_ofLiveness.2 (.inr ⟨p, .inl h⟩)

theorem mem_names_of_entryLive (hl : Liveness.ofFunction f = .ok l) (hx : x ∈ l.entryLive) :
    x ∈ (ofLiveness f l).names := by
  obtain ⟨p, -, hx⟩ := Liveness.mem_entryLive_iff.1 hx
  exact mem_names_of_liveBefore hl hx

/-- Whatever clashes with a name is a name of the graph, and so is the name. -/
theorem mem_names_of_mem_clashes (hl : Liveness.ofFunction f = .ok l) (h : y ∈ clashes f l x) :
    x ∈ (ofLiveness f l).names ∧ y ∈ (ofLiveness f l).names := by
  obtain ⟨-, ⟨hx, hy | hy⟩ | ⟨p, hx, hy⟩⟩ := mem_clashes_iff.1 h
  · exact ⟨mem_names_of_parameter hx, mem_names_of_parameter hy⟩
  · exact ⟨mem_names_of_parameter hx, mem_names_of_entryLive hl hy⟩
  · exact ⟨mem_names_of_definesAt hx, mem_names_of_liveAfter hl hy⟩

theorem interferes_iff_clash (hl : Liveness.ofFunction f = .ok l) :
    (ofLiveness f l).interferes x y = true ↔ y ∈ clashes f l x ∨ x ∈ clashes f l y := by
  rw [interferes_ofLiveness]
  constructor
  · rintro ⟨-, -, h⟩
    exact h
  · rintro (h | h)
    · obtain ⟨hx, hy⟩ := mem_names_of_mem_clashes hl h
      exact ⟨hx, hy, .inl h⟩
    · obtain ⟨hy, hx⟩ := mem_names_of_mem_clashes hl h
      exact ⟨hx, hy, .inr h⟩

/-- Two names clash if they differ and one is defined where the other is live afterwards, or both
are parameters, or one is a parameter and the other is live at the entry. -/
theorem clash_iff : y ∈ clashes f l x ∨ x ∈ clashes f l y ↔ x ≠ y ∧
    ((∃ p, x ∈ f.definesAt p ∧ l.LiveAfter p y ∨ y ∈ f.definesAt p ∧ l.LiveAfter p x) ∨
      f.isParameter x = true ∧ f.isParameter y = true ∨
      f.isParameter x = true ∧ y ∈ l.entryLive ∨ f.isParameter y = true ∧ x ∈ l.entryLive) := by
  rw [mem_clashes_iff, mem_clashes_iff, exists_or]
  constructor
  · rintro (⟨hne, ⟨hx, hy | hy⟩ | h⟩ | ⟨hne, ⟨hy, hx | hx⟩ | h⟩)
    · exact ⟨hne.symm, .inr (.inl ⟨hx, hy⟩)⟩
    · exact ⟨hne.symm, .inr (.inr (.inl ⟨hx, hy⟩))⟩
    · exact ⟨hne.symm, .inl (.inl h)⟩
    · exact ⟨hne, .inr (.inl ⟨hx, hy⟩)⟩
    · exact ⟨hne, .inr (.inr (.inr ⟨hy, hx⟩))⟩
    · exact ⟨hne, .inl (.inr h)⟩
  · rintro ⟨hne, (h | h) | ⟨hx, hy⟩ | ⟨hx, hy⟩ | ⟨hy, hx⟩⟩
    · exact .inl ⟨hne.symm, .inr h⟩
    · exact .inr ⟨hne, .inr h⟩
    · exact .inl ⟨hne.symm, .inl ⟨hx, .inl hy⟩⟩
    · exact .inl ⟨hne.symm, .inl ⟨hx, .inr hy⟩⟩
    · exact .inr ⟨hne, .inl ⟨hy, .inr hx⟩⟩

/-- The graph of a function has the named parameters and the defined and used names, and just the
edges that definitions, live names and parameters ask for, in both directions and none from a name
to itself. -/
theorem graph_is_exact (h : ofFunction f = .ok g) : ∃ l, Liveness.ofFunction f = .ok l ∧
    (∀ x, x ∈ g.names ↔
      f.isParameter x = true ∨ ∃ p, x ∈ f.definesAt p ∨ x ∈ f.usesAt p) ∧
    (∀ x y, g.interferes x y = true ↔ x ≠ y ∧
      ((∃ p, x ∈ f.definesAt p ∧ l.LiveAfter p y ∨ y ∈ f.definesAt p ∧ l.LiveAfter p x) ∨
        f.isParameter x = true ∧ f.isParameter y = true ∨
        f.isParameter x = true ∧ y ∈ l.entryLive ∨ f.isParameter y = true ∧ x ∈ l.entryLive)) ∧
    (∀ x y, g.interferes x y = g.interferes y x) ∧ ∀ x, g.interferes x x = false := by
  have hcomm := interferes_comm_of_ofFunction h
  have hself := interferes_self_of_ofFunction h
  obtain ⟨l, hl, rfl⟩ := ofFunction_eq_ok_iff.1 h
  refine ⟨l, hl, fun x => mem_names_ofLiveness, fun x y => ?_, hcomm, hself⟩
  rw [interferes_iff_clash hl, clash_iff]

/-- Adds up the numbers from its first argument to its second one. The phis use their incoming
values where they stand, so names that are no parameters are live at the entry. -/
def sumBetween : Function where
  name := "sum"
  returnType := "i32"
  parameters := [{ name := some "first", type := "i32" }, { name := some "last", type := "i32" }]
  blocks :=
    [{ label := "entry", instructions := [.branch "loop"] },
     { label := "loop"
       instructions :=
        [{ result := some "i", opcode := .phi, type := some "i32"
           incoming := [(.argument "first" "i32", "entry"), (.temp "next" "i32", "loop")] },
         { result := some "s", opcode := .phi, type := some "i32"
           incoming := [(.int 0 "i32", "entry"), (.temp "t" "i32", "loop")] },
         { result := some "t", opcode := .binary .add, type := some "i32"
           operands := [.temp "s" "i32", .temp "i" "i32"] },
         { result := some "next", opcode := .binary .add, type := some "i32"
           operands := [.temp "i" "i32", .int 1 "i32"] },
         { result := some "more", opcode := .icmp, type := some "i32", predicate := some .sle
           operands := [.temp "next" "i32", .argument "last" "i32"] },
         .condBranch (.temp "more" "i1") "loop" "done"] },
     { label := "done"
       instructions := [{ opcode := .ret, type := some "i32", operands := [.temp "t" "i32"] }] }]

/-- The interference graph of `sumBetween`. -/
def sumGraph : InterferenceGraph where
  names := .ofList ["first", "i", "last", "more", "next", "s", "t"]
  adjacency :=
    [("first", .ofList ["i", "last", "more", "next", "s", "t"]),
     ("i", .ofList ["first", "last", "s", "t"]),
     ("last", .ofList ["first", "i", "more", "next", "s", "t"]),
     ("more", .ofList ["first", "last", "next", "t"]),
     ("next", .ofList ["first", "last", "more", "t"]),
     ("s", .ofList ["first", "i", "last"]),
     ("t", .ofList ["first", "i", "last", "more", "next"])]

theorem ofFunction_sumBetween : ofFunction sumBetween = .ok sumGraph := by decide +kernel

/-- No parameter has a part in the edge between the two phis. -/
theorem graph_is_exact_sumBetween : ∃ l, Liveness.ofFunction sumBetween = .ok l ∧
    sumGraph.interferes "i" "s" = true ∧ ∃ p, "i" ∈ sumBetween.definesAt p ∧ l.LiveAfter p "s" ∨
      "s" ∈ sumBetween.definesAt p ∧ l.LiveAfter p "i" := by
  obtain ⟨l, hl, -, hedge, -⟩ := graph_is_exact ofFunction_sumBetween
  have hinterferes : sumGraph.interferes "i" "s" = true := by decide +kernel
  refine ⟨l, hl, hinterferes, ?_⟩
  obtain ⟨-, hlive | ⟨hi, -⟩ | ⟨hi, -⟩ | ⟨hs, -⟩⟩ := (hedge "i" "s").1 hinterferes
  · exact hlive
  · exact absurd hi (by decide)
  · exact absurd hi (by decide)
  · exact absurd hs (by decide)

end InterferenceGraph

end SsaIr
