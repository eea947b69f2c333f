import Mathlib.Data.List.Chain
import Mathlib.Logic.Function.Iterate
import SsaIr.Liveness
import SsaIr.Proofs.Graph.Instructions

/-!
# Liveness and paths

Rounds settle after finitely many changes. The rows they settle on are the least solution of the
two data-flow equations, and they list a name before an instruction exactly if a path leads from
there to a use of the name without passing a definition of it.
-/

namespace SsaIr

namespace Function

/-- A path leads from the instruction to one that uses the name, and no instruction on it before
that one defines the name. -/
def UsedAlongPath (f : Function) (x : String) (p : Position) : Prop :=
  ∃ (passed : List Position) (last : Position), (passed ++ [last]).head? = some p ∧
    (passed ++ [last]).IsChain f.Steps ∧ x ∈ f.usesAt last ∧ ∀ q ∈ passed, x ∉ f.definesAt q

/-- The two data-flow equations, for what is live before and after each instruction. -/
structure SolvesLiveness (f : Function) (before after : Position → String → Prop) : Prop where
  before_iff : ∀ {p x}, (f.instruction? p).isSome →
    (before p x ↔ x ∈ f.usesAt p ∨ after p x ∧ x ∉ f.definesAt p)
  after_iff : ∀ {p x}, (f.instruction? p).isSome →
    (after p x ↔ ∃ q, f.Steps p q ∧ before q x)

variable {f : Function} {x : String} {p q : Position}

theorem mem_usesAt : x ∈ f.usesAt p ↔ ∃ i, f.instruction? p = some i ∧ x ∈ i.uses := by
  unfold usesAt
  cases f.instruction? p <;> simp

theorem mem_definesAt : x ∈ f.definesAt p ↔ ∃ i, f.instruction? p = some i ∧ x ∈ i.defines := by
  unfold definesAt
  cases f.instruction? p <;> simp

theorem UsedAlongPath.use (h : x ∈ f.usesAt p) : f.UsedAlongPath x p :=
  ⟨[], p, rfl, List.isChain_singleton p, h, by simp⟩

theorem UsedAlongPath.step (h : f.UsedAlongPath x q) (hs : f.Steps p q)
    (hd : x ∉ f.definesAt p) : f.UsedAlongPath x p := by
  obtain ⟨passed, last, hhead, hchain, hu, hall⟩ := h
  refine ⟨p :: passed, last, rfl, ?_, hu, ?_⟩
  · rw [List.cons_append, List.isChain_cons]
    refine ⟨fun r hr => ?_, hchain⟩
    rw [hhead] at hr
    cases hr
    exact hs
  · intro r hr
    rcases List.mem_cons.1 hr with rfl | hr
    · exact hd
    · exact hall r hr

theorem exists_head?_concat (passed : List Position) (last : Position) :
    ∃ q, (passed ++ [last]).head? = some q := by
  cases passed with
  | nil => exact ⟨last, rfl⟩
  | cons r passed => exact ⟨r, rfl⟩

/-- What holds at uses, and spreads backwards past instructions that do not define the name, holds
wherever a path leads to a use. -/
theorem UsedAlongPath.rec_backwards {P : Position → Prop}
    (huse : ∀ p, x ∈ f.usesAt p → P p)
    (hstep : ∀ p q, f.Steps p q → x ∉ f.definesAt p → P q → P p)
    (h : f.UsedAlongPath x p) : P p := by
  obtain ⟨passed, last, hhead, hchain, hu, hall⟩ := h
  induction passed generalizing p with
  | nil =>
      cases hhead
      exact huse last hu
  | cons r passed ih =>
      cases hhead
      rw [List.cons_append, List.isChain_cons] at hchain
      obtain ⟨q, hq⟩ := exists_head?_concat passed last
      apply hstep r q (hchain.1 q hq) (hall r List.mem_cons_self)
      exact ih hq hchain.2 fun s hs => hall s (List.mem_cons_of_mem _ hs)

/-- A path either starts with a use, or passes its first instruction by and goes on. -/
theorem usedAlongPath_iff : f.UsedAlongPath x p ↔
    x ∈ f.usesAt p ∨ (∃ q, f.Steps p q ∧ f.UsedAlongPath x q) ∧ x ∉ f.definesAt p := by
  constructor
  · rintro ⟨passed, last, hhead, hchain, hu, hall⟩
    cases passed with
    | nil =>
        cases hhead
        exact .inl hu
    | cons r passed =>
        cases hhead
        rw [List.cons_append, List.isChain_cons] at hchain
        obtain ⟨q, hq⟩ := exists_head?_concat passed last
        refine .inr ⟨⟨q, hchain.1 q hq, ?_⟩, hall p List.mem_cons_self⟩
        exact ⟨passed, last, hq, hchain.2, hu, fun s hs => hall s (List.mem_cons_of_mem _ hs)⟩
  · rintro (hu | ⟨⟨q, hs, hq⟩, hd⟩)
    · exact .use hu
    · exact hq.step hs hd

theorem isSome_of_usedAlongPath (h : f.UsedAlongPath x p) : (f.instruction? p).isSome := by
  rcases usedAlongPath_iff.1 h with hu | ⟨⟨q, hs, -⟩, -⟩
  · obtain ⟨i, hi, -⟩ := mem_usesAt.1 hu
    rw [hi]
    rfl
  · exact hs.1

theorem exists_mem_usesAt_of_usedAlongPath (h : f.UsedAlongPath x p) :
    ∃ q, x ∈ f.usesAt q := by
  obtain ⟨passed, last, -, -, hu, -⟩ := h
  exact ⟨last, hu⟩

/-- Path liveness satisfies the two equations. -/
theorem solvesLiveness_usedAlongPath (f : Function) :
    f.SolvesLiveness (fun p x => f.UsedAlongPath x p)
      (fun p x => ∃ q, f.Steps p q ∧ f.UsedAlongPath x q) where
  before_iff _ := usedAlongPath_iff
  after_iff _ := Iff.rfl

end Function

namespace Liveness

/-- The name is live before the instruction. -/
def LiveBefore (l : Liveness) (p : Position) (x : String) : Prop :=
  ∃ names, l.liveIn? p = some names ∧ x ∈ names

/-- The name is live after the instruction. -/
def LiveAfter (l : Liveness) (p : Position) (x : String) : Prop :=
  ∃ names, l.liveOut? p = some names ∧ x ∈ names

/-- One round: each instruction recomputed, the last one first. -/
def round (f : Function) (g : InstructionGraph) (rows : List (Position × NameSet × NameSet)) :
    List (Position × NameSet × NameSet) := g.nodes.foldr (refresh f g) rows

variable {f : Function} {g : InstructionGraph} {l : Liveness} {p q : Position} {x : String}
variable {rows rows' : List (Position × NameSet × NameSet)}

theorem mem_of_lookup_eq_some {row : NameSet × NameSet} (h : rows.lookup p = some row) :
    (p, row) ∈ rows := by
  obtain ⟨front, back, rfl, -⟩ := List.lookup_eq_some_iff.1 h
  exact List.mem_append_right front List.mem_cons_self

theorem mem_before_iff {rows : List (Position × NameSet × NameSet)} :
    x ∈ before rows p ↔ ∃ names, (rows.lookup p).map Prod.fst = some names ∧ x ∈ names := by
  unfold before
  cases (rows.lookup p).map Prod.fst <;> simp

theorem Within.positions_eq (h : Within rows rows') : rows.map Prod.fst = rows'.map Prod.fst := by
  induction h with
  | nil => rfl
  | cons _ _ _ ih => rw [List.map_cons, List.map_cons, ih]

namespace Stage

theorem rows_foldr_refresh (ps : List Position) (s : Stage f g) :
    (ps.foldr refresh s).rows = ps.foldr (Liveness.refresh f g) s.rows := by
  induction ps with
  | nil => rfl
  | cons p ps ih =>
      rw [List.foldr_cons, List.foldr_cons, ← ih]
      rfl

theorem rows_next (s : Stage f g) : s.next.rows = round f g s.rows :=
  rows_foldr_refresh g.nodes s

theorem rows_next_settle (s : Stage f g) : s.settle.next.rows = s.settle.rows := by
  induction s using settle.induct with
  | case1 s h =>
      rw [settle, dif_pos h]
      exact h
  | case2 s h ih =>
      rw [settle, dif_neg h]
      exact ih

theorem within_settle (s : Stage f g) : Within s.rows s.settle.rows := by
  induction s using settle.induct with
  | case1 s h =>
      rw [settle, dif_pos h]
      exact .refl _
  | case2 s h ih =>
      rw [settle, dif_neg h]
      exact s.within_next.trans ih

/-- The loop ends: it stops at the first round that changes nothing, and the rounds before that
are no more than the names that the rows have room for. -/
theorem exists_rounds_settle (s : Stage f g) :
    ∃ n ≤ room f.usedNames s.rows,
      (∀ k < n, (round f g)^[k + 1] s.rows ≠ (round f g)^[k] s.rows) ∧
      (round f g)^[n] s.rows = s.settle.rows := by
  induction s using settle.induct with
  | case1 s h =>
      rw [settle, dif_pos h]
      exact ⟨0, Nat.zero_le _, fun k hk => absurd hk (Nat.not_lt_zero k), rfl⟩
  | case2 s h ih =>
      rw [settle, dif_neg h]
      obtain ⟨n, hn, hchange, hend⟩ := ih
      have hlt := s.within_next.room_lt s.next.bounded (Ne.symm h)
      rw [rows_next] at hn hlt h
      simp only [rows_next, ← Function.iterate_succ_apply] at hchange hend
      refine ⟨n + 1, by omega, ?_, hend⟩
      intro k hk
      cases k with
      | zero => exact h
      | succ k => exact hchange k (by omega)

/-- Where recomputing instructions one after another changes nothing in the end, recomputing any
one of them changes nothing. -/
theorem refresh_eq_of_foldr_eq {s : Stage f g} {ps : List Position}
    (h : (ps.foldr refresh s).rows = s.rows) (hp : p ∈ ps) :
    Liveness.refresh f g p s.rows = s.rows := by
  induction ps with
  | nil => simp at hp
  | cons q ps ih =>
      have hlast := (ps.foldr refresh s).rising.within_refresh q
      rw [List.foldr_cons] at h
      change Liveness.refresh f g q (ps.foldr refresh s).rows = s.rows at h
      rw [h] at hlast
      have hrows := hlast.antisymm (within_foldr_refresh ps s)
      rcases List.mem_cons.1 hp with rfl | hp
      · rwa [hrows] at h
      · exact ih hrows hp

/-- A property of rows that recomputing an instruction keeps is kept until they settle. -/
theorem settle_induction {P : List (Position × NameSet × NameSet) → Prop}
    (hstep : ∀ p ∈ g.nodes, ∀ rows, P rows → P (Liveness.refresh f g p rows)) (s : Stage f g)
    (hs : P s.rows) : P s.settle.rows := by
  have hnext : ∀ ps : List Position, (∀ p ∈ ps, p ∈ g.nodes) → ∀ s : Stage f g, P s.rows →
      P (ps.foldr refresh s).rows := by
    intro ps
    induction ps with
    | nil => exact fun _ _ hs => hs
    | cons p ps ih =>
        intro hps s hs
        apply hstep p (hps p List.mem_cons_self)
        exact ih (fun q hq => hps q (List.mem_cons_of_mem _ hq)) s hs
  induction s using settle.induct with
  | case1 s h =>
      rw [settle, dif_pos h]
      exact hs
  | case2 s h ih =>
      rw [settle, dif_neg h]
      exact ih (hnext g.nodes (fun _ h => h) s hs)

end Stage

theorem room_empty (names : NameSet) (ps : List Position) :
    room names (ps.map fun p => (p, ∅, ∅)) = 2 * names.size * ps.length := by
  induction ps with
  | nil => rfl
  | cons p ps ih =>
      rw [List.map_cons, room, ih, NameSet.size_empty, List.length_cons, Nat.mul_add]
      omega

/-- In settled rows, the row of an instruction is what recomputing it gives. -/
theorem lookup_settle (f : Function) (hp : p ∈ g.nodes) :
    (Stage.initial f g).settle.rows.lookup p =
      some (recomputeBefore f g (Stage.initial f g).settle.rows p,
        recomputeAfter g (Stage.initial f g).settle.rows p) := by
  set s := (Stage.initial f g).settle with hs
  have hfix : refresh f g p s.rows = s.rows :=
    Stage.refresh_eq_of_foldr_eq (Stage.initial f g).rows_next_settle hp
  have hmem : p ∈ s.rows.map Prod.fst := by
    rw [hs, ← (Stage.initial f g).within_settle.positions_eq]
    simpa [Stage.initial] using hp
  cases hrow : s.rows.lookup p with
  | none =>
      rw [List.lookup_eq_none_iff] at hrow
      obtain ⟨row, hr, rfl⟩ := List.mem_map.1 hmem
      simpa using hrow row hr
  | some row =>
      have hin : (p, row) ∈ s.rows := mem_of_lookup_eq_some hrow
      have heq := List.map_inj_left.1 (hfix.trans (List.map_id s.rows).symm) (p, row) hin
      simp only [if_true, id_eq, Prod.mk.injEq, true_and] at heq
      rw [← heq]

/-- The sets of settled rows satisfy the two equations. -/
theorem solvesLiveness (h : ofFunction f = .ok l) :
    f.SolvesLiveness l.LiveBefore l.LiveAfter := by
  obtain ⟨g, hg, rfl⟩ := map_eq_ok_iff.1 h
  have hnode : ∀ {p}, (f.instruction? p).isSome → p ∈ g.nodes := fun hp => by
    rw [InstructionGraph.nodes_of_ofFunction hg]
    exact Function.mem_positions.2 hp
  constructor
  · intro p x hp
    simp only [LiveBefore, LiveAfter, liveIn?, liveOut?, ofGraph, lookup_settle f (hnode hp),
      Option.map_some, Option.some.injEq, exists_eq_left', recomputeBefore, NameSet.mem_union,
      NameSet.mem_filter, decide_eq_true_eq]
  · intro p x hp
    simp only [LiveBefore, LiveAfter, liveIn?, liveOut?, ofGraph, lookup_settle f (hnode hp),
      Option.map_some, Option.some.injEq, exists_eq_left', recomputeAfter, mem_beforeAny,
      InstructionGraph.mem_targets_iff hg, mem_before_iff]

/-- What satisfies the two equations holds wherever the settled rows list a name. -/
theorem le_of_solvesLiveness (h : ofFunction f = .ok l)
    {before after : Position → String → Prop} (hs : f.SolvesLiveness before after) :
    (∀ p x, l.LiveBefore p x → before p x) ∧ ∀ p x, l.LiveAfter p x → after p x := by
  obtain ⟨g, hg, rfl⟩ := map_eq_ok_iff.1 h
  have hall : ∀ row ∈ (ofGraph f g).rows, (∀ x ∈ row.2.1, before row.1 x) ∧
      ∀ x ∈ row.2.2, after row.1 x := by
    refine Stage.settle_induction (P := fun rows => ∀ row ∈ rows,
      (∀ x ∈ row.2.1, before row.1 x) ∧ ∀ x ∈ row.2.2, after row.1 x) ?_ (.initial f g) ?_
    · intro p hp rows hrows row hrow
      rw [InstructionGraph.nodes_of_ofFunction hg] at hp
      have hsome := Function.mem_positions.1 hp
      obtain ⟨old, hold, rfl⟩ := List.mem_map.1 hrow
      split
      · have hafter : ∀ x ∈ recomputeAfter g rows p, after p x := by
          intro x hx
          obtain ⟨q, hq, hx⟩ := mem_beforeAny.1 hx
          obtain ⟨names, hl, hx⟩ := mem_before_iff.1 hx
          obtain ⟨row, hrow, rfl⟩ := Option.map_eq_some_iff.1 hl
          apply (hs.after_iff hsome).2
          exact ⟨q, (InstructionGraph.mem_targets_iff hg).1 hq,
            (hrows (q, row) (mem_of_lookup_eq_some hrow)).1 x hx⟩
        refine ⟨fun x hx => ?_, hafter⟩
        simp only [recomputeBefore, NameSet.mem_union, NameSet.mem_filter,
          decide_eq_true_eq] at hx
        apply (hs.before_iff hsome).2
        exact hx.imp_right fun hx => ⟨hafter x hx.1, hx.2⟩
      · exact hrows old hold
    · intro row hrow
      obtain ⟨p, -, rfl⟩ := List.mem_map.1 hrow
      exact ⟨fun x hx => absurd hx (NameSet.not_mem_empty x),
        fun x hx => absurd hx (NameSet.not_mem_empty x)⟩
  constructor
  · rintro p x ⟨names, hl, hx⟩
    obtain ⟨row, hrow, rfl⟩ := Option.map_eq_some_iff.1 hl
    exact (hall (p, row) (mem_of_lookup_eq_some hrow)).1 x hx
  · rintro p x ⟨names, hl, hx⟩
    obtain ⟨row, hrow, rfl⟩ := Option.map_eq_some_iff.1 hl
    exact (hall (p, row) (mem_of_lookup_eq_some hrow)).2 x hx

theorem start_of_ofFunction (h : ofFunction f = .ok l)
    (hg : InstructionGraph.ofFunction f = .ok g) : l.start = g.start := by
  rw [ofFunction, hg] at h
  cases h
  rfl

theorem mem_entryLive_iff : x ∈ l.entryLive ↔ ∃ p, l.start = some p ∧ l.LiveBefore p x := by
  unfold entryLive LiveBefore
  cases l.start with
  | none => simp
  | some p => cases hin : l.liveIn? p <;> simp [hin]

theorem lookup_eq_none (h : ofFunction f = .ok l) (hp : f.instruction? p = none) :
    l.rows.lookup p = none := by
  obtain ⟨g, hg, rfl⟩ := map_eq_ok_iff.1 h
  rw [List.lookup_eq_none_iff]
  intro row hrow
  have hpos : row.1 ∈ (ofGraph f g).rows.map Prod.fst := List.mem_map_of_mem hrow
  rw [ofGraph, ← (Stage.initial f g).within_settle.positions_eq] at hpos
  have hmem : row.1 ∈ f.positions := by
    rw [← InstructionGraph.nodes_of_ofFunction hg]
    simpa [Stage.initial] using hpos
  rw [bne_iff_ne]
  rintro rfl
  rw [Function.mem_positions, hp] at hmem
  cases hmem

/-- Exactly the instructions have live names before and after them. -/
theorem isSome_lookup (h : ofFunction f = .ok l) (p : Position) :
    (l.rows.lookup p).isSome = (f.instruction? p).isSome := by
  cases hp : f.instruction? p with
  | none => rw [lookup_eq_none h hp, Option.isSome_none, Option.isSome_none]
  | some i =>
      obtain ⟨g, hg, rfl⟩ := map_eq_ok_iff.1 h
      have hnode : p ∈ g.nodes := by
        rw [InstructionGraph.nodes_of_ofFunction hg, Function.mem_positions, hp]
        rfl
      rw [ofGraph, lookup_settle f hnode, Option.isSome_some, Option.isSome_some]

theorem liveBefore_iff_usedAlongPath (h : ofFunction f = .ok l) :
    l.LiveBefore p x ↔ f.UsedAlongPath x p := by
  have hs := solvesLiveness h
  constructor
  · intro hx
    exact (le_of_solvesLiveness h f.solvesLiveness_usedAlongPath).1 p x hx
  · intro hx
    have hp := Function.isSome_of_usedAlongPath hx
    have hlive : (f.instruction? p).isSome → l.LiveBefore p x := by
      refine hx.rec_backwards (P := fun p => (f.instruction? p).isSome → l.LiveBefore p x) ?_ ?_
      · intro p hu hp
        exact (hs.before_iff hp).2 (.inl hu)
      · intro p q hpq hd hq hp
        apply (hs.before_iff hp).2
        exact .inr ⟨(hs.after_iff hp).2 ⟨q, hpq, hq hpq.2.1⟩, hd⟩
    exact hlive hp

theorem liveAfter_iff (h : ofFunction f = .ok l) :
    l.LiveAfter p x ↔ ∃ q, f.Steps p q ∧ l.LiveBefore q x := by
  constructor
  · intro hx
    have hp : (f.instruction? p).isSome := by
      obtain ⟨names, hl, -⟩ := hx
      obtain ⟨row, hrow, -⟩ := Option.map_eq_some_iff.1 hl
      rw [← isSome_lookup h, hrow]
      rfl
    exact ((solvesLiveness h).after_iff hp).1 hx
  · rintro ⟨q, hpq, hq⟩
    exact ((solvesLiveness h).after_iff hpq.1).2 ⟨q, hpq, hq⟩

/-- Liveness is path liveness. The loop ends with the first round that changes nothing, after no
more rounds than there are names and sets to put them in; every instruction has its two sets, and
no other position does; a name is live before an instruction exactly if a path leads to a use of
it that passes no definition, and after one exactly if it is live before a successor; and the sets
are the least ones that satisfy the two equations. -/
theorem live_exactly_along_paths (h : ofFunction f = .ok l) :
    (∃ g, InstructionGraph.ofFunction f = .ok g ∧
      ∃ n ≤ 2 * f.usedNames.size * f.positions.length,
        (∀ k < n, (round f g)^[k + 1] (g.nodes.map fun p => (p, ∅, ∅)) ≠
          (round f g)^[k] (g.nodes.map fun p => (p, ∅, ∅))) ∧
        (round f g)^[n] (g.nodes.map fun p => (p, ∅, ∅)) = l.rows ∧ round f g l.rows = l.rows) ∧
    (∀ p, (l.liveIn? p).isSome = (f.instruction? p).isSome ∧
      (l.liveOut? p).isSome = (f.instruction? p).isSome) ∧
    (∀ p x, l.LiveBefore p x ↔ f.UsedAlongPath x p) ∧
    (∀ p x, l.LiveAfter p x ↔ ∃ q, f.Steps p q ∧ l.LiveBefore q x) ∧
    f.SolvesLiveness l.LiveBefore l.LiveAfter ∧
    ∀ before after, f.SolvesLiveness before after →
      (∀ p x, l.LiveBefore p x → before p x) ∧ ∀ p x, l.LiveAfter p x → after p x := by
  refine ⟨?_, fun p => ?_, fun p x => liveBefore_iff_usedAlongPath h, fun p x => liveAfter_iff h,
    solvesLiveness h, fun before after => le_of_solvesLiveness h⟩
  · obtain ⟨g, hg, rfl⟩ := map_eq_ok_iff.1 h
    obtain ⟨n, hn, hchange, hend⟩ := (Stage.initial f g).exists_rounds_settle
    refine ⟨g, hg, n, ?_, hchange, hend, ?_⟩
    · rw [← InstructionGraph.nodes_of_ofFunction hg, ← room_empty]
      exact hn
    · rw [ofGraph, ← Stage.rows_next]
      exact (Stage.initial f g).rows_next_settle
  · simp only [liveIn?, liveOut?, Option.isSome_map, isSome_lookup h, and_self]

/-- Counts down from its argument. The copies behind the branches run before them. -/
def countdown : Function where
  name := "countdown"
  returnType := "void"
  parameters := [{ name := some "n", type := "i32" }]
  blocks :=
    [{ label := "entry"
       instructions := [.branch "loop", .copy "i" none (.argument "n" "i32")] },
     { label := "loop"
       instructions :=
        [{ result := some "j", opcode := .binary .sub, type := some "i32"
           operands := [.temp "i" "i32", .int 1 "i32"] },
         .condBranch (.temp "j" "i32") "loop" "done", .copy "i" none (.temp "j" "i32")] },
     { label := "done", instructions := [{ opcode := .ret, type := some "void" }] }]

/-- The instruction graph of `countdown`. -/
def countdownGraph : InstructionGraph where
  nodes := [⟨0, 0⟩, ⟨0, 1⟩, ⟨1, 0⟩, ⟨1, 1⟩, ⟨1, 2⟩, ⟨2, 0⟩]
  edges := [(⟨0, 0⟩, ⟨1, 0⟩), (⟨0, 1⟩, ⟨0, 0⟩), (⟨1, 0⟩, ⟨1, 2⟩), (⟨1, 1⟩, ⟨1, 0⟩),
    (⟨1, 1⟩, ⟨2, 0⟩), (⟨1, 2⟩, ⟨1, 1⟩)]
  start := some ⟨0, 1⟩

theorem ofFunction_countdownGraph :
    InstructionGraph.ofFunction countdown = .ok countdownGraph := rfl

theorem ofFunction_countdown :
    Liveness.ofFunction countdown = .ok (ofGraph countdown countdownGraph) := by
  rw [ofFunction, ofFunction_countdownGraph]
  rfl

theorem live_exactly_along_paths_countdown :
    ∃ l, Liveness.ofFunction countdown = .ok l ∧ l.LiveBefore ⟨1, 1⟩ "i" ∧
      ∀ p x, l.LiveBefore p x ↔ countdown.UsedAlongPath x p := by
  obtain ⟨-, -, hpath, -⟩ := live_exactly_along_paths ofFunction_countdown
  refine ⟨_, ofFunction_countdown, (hpath _ _).2 ?_, hpath⟩
  have huse : countdown.UsedAlongPath "i" ⟨1, 0⟩ := .use (by decide)
  have hback : countdown.Steps ⟨1, 1⟩ ⟨1, 0⟩ := ⟨rfl, rfl, [⟨1, 0⟩, ⟨2, 0⟩], rfl, by decide⟩
  exact huse.step hback (by decide)

end Liveness

end SsaIr
