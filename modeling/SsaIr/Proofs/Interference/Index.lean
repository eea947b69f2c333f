import SsaIr.Interference.Index
import SsaIr.Proofs.Liveness

/-!
# Names and their nodes

The table of an interference index and its graph are changed together, so that a name has the number
of the node with that name. So what the index of a function says of names is decided by the pairs of
names that it was built from.
-/

namespace SsaIr

namespace InterferenceIndex

open NumberedGraph LawfulNumberedGraph

variable {G : Type} [NumberedGraph G] {g : InterferenceIndex G}
variable {f : Function} {l : Liveness} {a b x y : String} {m n : Nat}
variable {names : List String} {pairs : List (String × String)}

/-- A name has the number of the node with that name. -/
def Consistent (g : InterferenceIndex G) : Prop :=
  ∀ x n, g.numbers.find? x = some n ↔ text? g.graph n = some x

omit [NumberedGraph G] in
theorem mem_names_iff : x ∈ g.names ↔ ∃ n, g.numbers.find? x = some n :=
  NameTable.mem_names.trans Option.isSome_iff_exists

theorem interferes_iff : g.interferes x y = true ↔ ∃ m n, g.numbers.find? x = some m ∧
    g.numbers.find? y = some n ∧ adjacent g.graph m n = true := by
  rw [interferes]
  cases g.numbers.find? x with
  | none => simp
  | some m =>
      cases g.numbers.find? y with
      | none => simp
      | some n => simp

theorem addName_of_some (h : g.numbers.find? x = some n) : g.addName x = (g, n) := by
  rw [addName, h]

theorem addName_of_none (h : g.numbers.find? x = none) : g.addName x =
    ({ graph := (addNode g.graph x).1, numbers := g.numbers.insert x (addNode g.graph x).2 },
      (addNode g.graph x).2) := by
  rw [addName, h]

theorem find?_addName : (g.addName x).1.numbers.find? y =
    if y = x then some (g.addName x).2 else g.numbers.find? y := by
  cases hx : g.numbers.find? x with
  | some n =>
      rw [addName_of_some hx]
      by_cases hy : y = x
      · rw [if_pos hy, hy, hx]
      · rw [if_neg hy]
  | none =>
      rw [addName_of_none hx]
      exact g.numbers.find?_insert

theorem find?_addName_of_some (h : g.numbers.find? y = some n) :
    (g.addName x).1.numbers.find? y = some n := by
  rw [find?_addName]
  by_cases hy : y = x
  · subst hy
    rw [if_pos rfl, addName_of_some h]
  · rw [if_neg hy, h]

theorem mem_names_addName : y ∈ (g.addName x).1.names ↔ y = x ∨ y ∈ g.names := by
  rw [mem_names_iff, mem_names_iff, find?_addName]
  by_cases hy : y = x <;> simp [hy]

theorem numbers_addEdge : (g.addEdge x y).numbers = ((g.addName x).1.addName y).1.numbers := rfl

theorem graph_addEdge : (g.addEdge x y).graph =
    connect ((g.addName x).1.addName y).1.graph (g.addName x).2 ((g.addName x).1.addName y).2 := rfl

theorem mem_names_addEdge : a ∈ (g.addEdge x y).names ↔ a = x ∨ a = y ∨ a ∈ g.names := by
  rw [mem_names_iff, numbers_addEdge, ← mem_names_iff, mem_names_addName, mem_names_addName]
  exact or_left_comm

theorem Consistent.eq_iff (h : g.Consistent) (hx : g.numbers.find? x = some m)
    (hy : g.numbers.find? y = some n) : m = n ↔ x = y := by
  constructor
  · rintro rfl
    exact Option.some.inj (((h x m).1 hx).symm.trans ((h y m).1 hy))
  · rintro rfl
    exact Option.some.inj (hx.symm.trans hy)

variable [LawfulNumberedGraph G]

theorem consistent_empty : (empty : InterferenceIndex G).Consistent := by
  intro x n
  simp [empty, text?_empty]

/-! ## Adding names and edges -/

theorem Consistent.addName (h : g.Consistent) (x : String) : (g.addName x).1.Consistent := by
  cases hx : g.numbers.find? x with
  | some n => rwa [addName_of_some hx]
  | none =>
      rw [addName_of_none hx]
      intro y n
      change (g.numbers.insert x _).find? y = some n ↔ text? (addNode g.graph x).1 n = some y
      rw [NameTable.find?_insert, text?_addNode]
      by_cases hy : y = x
      · by_cases hn : n = (addNode g.graph x).2
        · simp [hy, hn]
        · have hno : text? g.graph n ≠ some x := by
            rw [ne_eq, ← h, hx]
            simp
          simp [hy, hn, Ne.symm hn, hno]
      · by_cases hn : n = (addNode g.graph x).2
        · have hno : g.numbers.find? y ≠ some (addNode g.graph x).2 := by
            rw [ne_eq, h, text?_new]
            simp
          simp [hy, hn, Ne.symm hy, hno]
        · simp [hy, hn, h y n]

theorem interferes_addName : (g.addName x).1.interferes a b = g.interferes a b := by
  cases hx : g.numbers.find? x with
  | some n => rw [addName_of_some hx]
  | none =>
      -- the new node has a number that no node had, and so it has no edges
      have hfresh : ∀ {m n}, adjacent g.graph m n = true →
          m ≠ (addNode g.graph x).2 ∧ n ≠ (addNode g.graph x).2 := by
        intro m n hmn
        obtain ⟨hm, hn⟩ := text?_of_adjacent hmn
        constructor
        · rintro rfl
          simp [text?_new] at hm
        · rintro rfl
          simp [text?_new] at hn
      rw [addName_of_none hx, Bool.eq_iff_iff, interferes_iff, interferes_iff]
      simp only [NameTable.find?_insert, adjacent_addNode]
      constructor
      · rintro ⟨m, n, hm, hn, hmn⟩
        split at hm
        · exact absurd (Option.some.inj hm).symm (hfresh hmn).1
        · split at hn
          · exact absurd (Option.some.inj hn).symm (hfresh hmn).2
          · exact ⟨m, n, hm, hn, hmn⟩
      · rintro ⟨m, n, hm, hn, hmn⟩
        have ha : a ≠ x := by
          rintro rfl
          simp [hx] at hm
        have hb : b ≠ x := by
          rintro rfl
          simp [hx] at hn
        exact ⟨m, n, by rw [if_neg ha, hm], by rw [if_neg hb, hn], hmn⟩

theorem Consistent.addEdge (h : g.Consistent) (x y : String) : (g.addEdge x y).Consistent := by
  intro a n
  rw [numbers_addEdge, graph_addEdge, text?_connect]
  exact (h.addName x).addName y a n

theorem interferes_addEdge (h : g.Consistent) : (g.addEdge x y).interferes a b = true ↔
    g.interferes a b = true ∨ a = x ∧ b = y ∨ a = y ∧ b = x := by
  have hadded := (h.addName x).addName y
  have hx : ((g.addName x).1.addName y).1.numbers.find? x = some (g.addName x).2 :=
    find?_addName_of_some (by rw [find?_addName, if_pos rfl])
  have hy : ((g.addName x).1.addName y).1.numbers.find? y = some ((g.addName x).1.addName y).2 := by
    rw [find?_addName, if_pos rfl]
  have hkeep : ((g.addName x).1.addName y).1.interferes a b = g.interferes a b := by
    rw [interferes_addName, interferes_addName]
  have hconnect := adjacent_connect (Option.isSome_iff_exists.2 ⟨x, (hadded _ _).1 hx⟩)
    (Option.isSome_iff_exists.2 ⟨y, (hadded _ _).1 hy⟩)
  rw [← hkeep, interferes_iff, interferes_iff, numbers_addEdge, graph_addEdge]
  constructor
  · rintro ⟨m, n, hm, hn, hmn⟩
    rcases (hconnect m n).1 hmn with hmn | ⟨hmx, hny⟩ | ⟨hmy, hnx⟩
    · exact .inl ⟨m, n, hm, hn, hmn⟩
    · exact .inr (.inl ⟨(hadded.eq_iff hm hx).1 hmx, (hadded.eq_iff hn hy).1 hny⟩)
    · exact .inr (.inr ⟨(hadded.eq_iff hm hy).1 hmy, (hadded.eq_iff hn hx).1 hnx⟩)
  · rintro (⟨m, n, hm, hn, hmn⟩ | ⟨rfl, rfl⟩ | ⟨rfl, rfl⟩)
    · exact ⟨m, n, hm, hn, (hconnect m n).2 (.inl hmn)⟩
    · exact ⟨_, _, hx, hy, (hconnect _ _).2 (.inr (.inl ⟨rfl, rfl⟩))⟩
    · exact ⟨_, _, hy, hx, (hconnect _ _).2 (.inr (.inr ⟨rfl, rfl⟩))⟩

/-! ## The index of a function -/

theorem Consistent.foldl_addName (h : g.Consistent) (names : List String) :
    (names.foldl (fun g x => (g.addName x).1) g).Consistent := by
  induction names generalizing g with
  | nil => exact h
  | cons x names ih => exact ih (h.addName x)

theorem interferes_foldl_addName :
    (names.foldl (fun g x => (g.addName x).1) g).interferes a b = g.interferes a b := by
  induction names generalizing g with
  | nil => rfl
  | cons x names ih => rw [List.foldl_cons, ih, interferes_addName]

omit [LawfulNumberedGraph G] in
theorem mem_names_foldl_addName :
    a ∈ (names.foldl (fun g x => (g.addName x).1) g).names ↔ a ∈ names ∨ a ∈ g.names := by
  induction names generalizing g with
  | nil => simp
  | cons x names ih =>
      rw [List.foldl_cons, ih, mem_names_addName, List.mem_cons, or_assoc]
      exact or_left_comm

theorem Consistent.foldl_addEdge (h : g.Consistent) (pairs : List (String × String)) :
    (pairs.foldl (fun g pair => g.addEdge pair.1 pair.2) g).Consistent := by
  induction pairs generalizing g with
  | nil => exact h
  | cons pair pairs ih => exact ih (h.addEdge pair.1 pair.2)

theorem interferes_foldl_addEdge (h : g.Consistent) :
    (pairs.foldl (fun g pair => g.addEdge pair.1 pair.2) g).interferes a b = true ↔
      g.interferes a b = true ∨ (a, b) ∈ pairs ∨ (b, a) ∈ pairs := by
  induction pairs generalizing g with
  | nil => simp
  | cons pair pairs ih =>
      obtain ⟨x, y⟩ := pair
      rw [List.foldl_cons, ih (h.addEdge x y), interferes_addEdge h]
      simp only [List.mem_cons, Prod.mk.injEq, and_comm (a := b = x)]
      constructor
      · rintro ((hab | hab | hab) | hab | hab)
        · exact .inl hab
        · exact .inr (.inl (.inl hab))
        · exact .inr (.inr (.inl hab))
        · exact .inr (.inl (.inr hab))
        · exact .inr (.inr (.inr hab))
      · rintro (hab | (hab | hab) | hab | hab)
        · exact .inl (.inl hab)
        · exact .inl (.inr (.inl hab))
        · exact .inr (.inl hab)
        · exact .inl (.inr (.inr hab))
        · exact .inr (.inr hab)

omit [LawfulNumberedGraph G] in
theorem mem_names_foldl_addEdge :
    a ∈ (pairs.foldl (fun g pair => g.addEdge pair.1 pair.2) g).names ↔
      (∃ pair ∈ pairs, a = pair.1 ∨ a = pair.2) ∨ a ∈ g.names := by
  induction pairs generalizing g with
  | nil => simp
  | cons pair pairs ih =>
      rw [List.foldl_cons, ih, mem_names_addEdge]
      simp only [List.mem_cons, exists_eq_or_imp]
      constructor
      · rintro (h | h | h | h)
        · exact .inl (.inr h)
        · exact .inl (.inl (.inl h))
        · exact .inl (.inl (.inr h))
        · exact .inr h
      · rintro ((h | h) | h)
        · exact .inr (h.elim .inl fun h => .inr (.inl h))
        · exact .inl h
        · exact .inr (.inr (.inr h))

theorem mem_definitionPairs :
    (x, y) ∈ definitionPairs f l ↔ x ≠ y ∧ ∃ p, x ∈ f.definesAt p ∧ l.LiveAfter p y := by
  rw [definitionPairs, List.mem_flatMap]
  constructor
  · rintro ⟨⟨p, i⟩, hi, hpair⟩
    dsimp only at hpair
    split at hpair
    · cases hpair
    · next after hafter =>
        obtain ⟨x', hx, hpair⟩ := List.mem_flatMap.1 hpair
        obtain ⟨y', hy, heq⟩ := List.mem_map.1 hpair
        obtain ⟨rfl, rfl⟩ := Prod.mk.inj heq
        obtain ⟨hy, hne⟩ := List.mem_filter.1 hy
        rw [decide_eq_true_eq] at hne
        refine ⟨hne.symm, p, ?_, after, hafter, hy⟩
        exact Function.mem_definesAt.2 ⟨i, Function.mem_located.1 hi, hx⟩
  · rintro ⟨hne, p, hx, after, hafter, hy⟩
    obtain ⟨i, hi, hx⟩ := Function.mem_definesAt.1 hx
    refine ⟨(p, i), Function.mem_located.2 hi, ?_⟩
    simp only [hafter, List.mem_flatMap]
    refine ⟨x, hx, List.mem_map.2 ⟨y, List.mem_filter.2 ⟨hy, ?_⟩, rfl⟩⟩
    simpa using hne.symm

/-- Two names are a pair, in one order or the other, if both are parameters or one is a parameter and
the other is live at the entry. -/
theorem mem_parameterPairs {live : NameSet} : (x, y) ∈ parameterPairs live names ∨
    (y, x) ∈ parameterPairs live names ↔ x ≠ y ∧ (x ∈ names ∧ y ∈ names ∨
      x ∈ names ∧ y ∈ live ∨ y ∈ names ∧ x ∈ live) := by
  induction names with
  | nil => simp [parameterPairs]
  | cons z names ih =>
      have hcons : ∀ {x y}, (x, y) ∈ parameterPairs live (z :: names) ↔
          (x = z ∧ y ≠ z ∧ (y ∈ names ∨ y ∈ live)) ∨ (x, y) ∈ parameterPairs live names := by
        intro x y
        simp [parameterPairs, NameSet.mem_toList]
        grind
      rw [hcons, hcons]
      grind

theorem consistent_ofLiveness : (ofLiveness f l : InterferenceIndex G).Consistent :=
  (consistent_empty.foldl_addName _).foldl_addEdge _

theorem interferes_ofLiveness_iff : (ofLiveness f l : InterferenceIndex G).interferes x y = true ↔
    ((x, y) ∈ definitionPairs f l ∨ (y, x) ∈ definitionPairs f l) ∨
      (x, y) ∈ parameterPairs l.entryLive f.parameterNames ∨
        (y, x) ∈ parameterPairs l.entryLive f.parameterNames := by
  rw [ofLiveness, interferes_foldl_addEdge (consistent_empty.foldl_addName _),
    interferes_foldl_addName, List.mem_append, List.mem_append]
  have hempty : (empty : InterferenceIndex G).interferes x y = false := rfl
  rw [hempty]
  constructor
  · rintro (h | (h | h) | h | h)
    · cases h
    · exact .inl (.inl h)
    · exact .inr (.inl h)
    · exact .inl (.inr h)
    · exact .inr (.inr h)
  · rintro ((h | h) | h | h)
    · exact .inr (.inl (.inl h))
    · exact .inr (.inr (.inl h))
    · exact .inr (.inl (.inr h))
    · exact .inr (.inr (.inr h))

omit [LawfulNumberedGraph G] in
theorem ofFunction_eq_ok_iff : ofFunction f = .ok g ↔
    ∃ l, Liveness.ofFunction f = .ok l ∧ ofLiveness f l = g :=
  map_eq_ok_iff

theorem consistent_ofFunction (h : ofFunction f = .ok g) : g.Consistent := by
  obtain ⟨l, -, rfl⟩ := ofFunction_eq_ok_iff.1 h
  exact consistent_ofLiveness

end InterferenceIndex

end SsaIr
