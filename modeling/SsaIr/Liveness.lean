import SsaIr.Graph.Instructions

/-!
# Liveness

A name is live before an instruction if the instruction uses it, or if it is live after the
instruction and not defined there; it is live after an instruction if it is live before some
instruction that control goes to. The sets start empty. A round recomputes every instruction from
its successors, the last instruction first, and each result is seen by the rest of the round;
rounds go on until one changes nothing. A phi uses its incoming values where it stands.
-/

namespace SsaIr

namespace Function

/-- The names that the instruction at a position uses. -/
def usesAt (f : Function) (p : Position) : NameSet :=
  ((f.instruction? p).map Instruction.uses).getD ∅

/-- The names that the instruction at a position defines. -/
def definesAt (f : Function) (p : Position) : NameSet :=
  ((f.instruction? p).map Instruction.defines).getD ∅

/-- The names that instructions use. -/
def usedNames (f : Function) : NameSet :=
  NameSet.ofList (f.instructions.flatMap (·.uses.toList))

theorem usesAt_subset_usedNames (f : Function) (p : Position) : f.usesAt p ⊆ f.usedNames := by
  intro x hx
  simp only [usesAt] at hx
  cases h : f.instruction? p with
  | none => simp [h] at hx
  | some i =>
      obtain ⟨b, hb, hi⟩ := Option.bind_eq_some_iff.1 h
      simp only [h, Option.map_some, Option.getD_some] at hx
      refine NameSet.mem_ofList.2 (List.mem_flatMap.2 ⟨i, ?_, hx⟩)
      exact List.mem_flatMap.2 ⟨b, List.mem_of_getElem? hb, List.mem_of_getElem? hi⟩

end Function

structure Liveness where
  /-- The instructions, with the names live before and after each. -/
  rows : List (Position × NameSet × NameSet)
  start : Option Position
  deriving DecidableEq, Inhabited

namespace Liveness

variable {f : Function} {g : InstructionGraph}
variable {rows rows' rows'' : List (Position × NameSet × NameSet)} {p q : Position}

/-- The names that the rows list as live before an instruction. -/
def before (rows : List (Position × NameSet × NameSet)) (p : Position) : NameSet :=
  ((rows.lookup p).map Prod.fst).getD ∅

/-- The names that the rows list as live before some of the instructions. -/
def beforeAny (rows : List (Position × NameSet × NameSet)) (ps : List Position) : NameSet :=
  ps.foldr (fun p names => before rows p ∪ names) ∅

theorem mem_beforeAny {ps : List Position} {x : String} :
    x ∈ beforeAny rows ps ↔ ∃ p ∈ ps, x ∈ before rows p := by
  induction ps with
  | nil => simp [beforeAny]
  | cons p ps ih =>
      rw [beforeAny, List.foldr_cons, NameSet.mem_union]
      simp only [List.mem_cons, exists_eq_or_imp]
      exact or_congr_right ih

/-- The names live after an instruction, as its successors have them. -/
def recomputeAfter (g : InstructionGraph) (rows : List (Position × NameSet × NameSet))
    (p : Position) : NameSet := beforeAny rows (g.targets p)

/-- The names live before an instruction, as its successors have them. -/
def recomputeBefore (f : Function) (g : InstructionGraph)
    (rows : List (Position × NameSet × NameSet)) (p : Position) : NameSet :=
  f.usesAt p ∪ (recomputeAfter g rows p).filter (· ∉ f.definesAt p)

/-- Recompute one instruction. -/
def refresh (f : Function) (g : InstructionGraph) (p : Position)
    (rows : List (Position × NameSet × NameSet)) : List (Position × NameSet × NameSet) :=
  rows.map fun row =>
    if row.1 = p then (p, recomputeBefore f g rows p, recomputeAfter g rows p) else row

/-- Each set of the first rows lies within the same set of the second ones. -/
inductive Within : List (Position × NameSet × NameSet) → List (Position × NameSet × NameSet) →
    Prop where
  | nil : Within [] []
  | cons {p : Position} {b b' a a' : NameSet}
      {rows rows' : List (Position × NameSet × NameSet)} : b ⊆ b' → a ⊆ a' → Within rows rows' →
      Within ((p, b, a) :: rows) ((p, b', a') :: rows')

theorem Within.refl : (rows : List (Position × NameSet × NameSet)) → Within rows rows
  | [] => .nil
  | (_, b, a) :: rows => .cons b.subset_refl a.subset_refl (.refl rows)

theorem Within.trans (h : Within rows rows') (k : Within rows' rows'') : Within rows rows'' := by
  induction h generalizing rows'' with
  | nil => exact k
  | cons hb ha _ ih =>
      cases k with
      | cons kb ka k =>
          exact .cons (NameSet.subset_trans hb kb) (NameSet.subset_trans ha ka) (ih k)

theorem Within.antisymm (h : Within rows rows') (k : Within rows' rows) : rows = rows' := by
  induction h with
  | nil => rfl
  | cons hb ha _ ih =>
      cases k with
      | cons kb ka k =>
          rw [NameSet.eq_of_subset_of_subset hb kb, NameSet.eq_of_subset_of_subset ha ka, ih k]

theorem Within.before_subset (h : Within rows rows') (p : Position) :
    before rows p ⊆ before rows' p := by
  induction h with
  | nil => exact NameSet.subset_refl _
  | @cons q b b' a a' rows rows' hb _ _ ih =>
      by_cases hq : p = q
      · simpa [before, List.lookup_cons, hq] using hb
      · simpa [before, List.lookup_cons, beq_false_of_ne hq] using ih

theorem Within.recomputeAfter_subset (h : Within rows rows') (p : Position) :
    recomputeAfter g rows p ⊆ recomputeAfter g rows' p := by
  intro x hx
  obtain ⟨q, hq, hx⟩ := mem_beforeAny.1 hx
  exact mem_beforeAny.2 ⟨q, hq, h.before_subset q x hx⟩

theorem Within.recomputeBefore_subset (h : Within rows rows') (p : Position) :
    recomputeBefore f g rows p ⊆ recomputeBefore f g rows' p := by
  intro x hx
  simp only [recomputeBefore, NameSet.mem_union, NameSet.mem_filter] at hx ⊢
  rcases hx with hx | ⟨hx, hd⟩
  · exact .inl hx
  · exact .inr ⟨h.recomputeAfter_subset p x hx, hd⟩

/-- Recomputing an instruction would lose no name. -/
def Rising (f : Function) (g : InstructionGraph)
    (rows : List (Position × NameSet × NameSet)) : Prop :=
  ∀ row ∈ rows, row.2.1 ⊆ recomputeBefore f g rows row.1 ∧
    row.2.2 ⊆ recomputeAfter g rows row.1

/-- Rows that stay where they are and lose no name. -/
theorem Within.of_map {change : Position × NameSet × NameSet → Position × NameSet × NameSet}
    (h : ∀ row ∈ rows, (change row).1 = row.1 ∧ row.2.1 ⊆ (change row).2.1 ∧
      row.2.2 ⊆ (change row).2.2) : Within rows (rows.map change) := by
  induction rows with
  | nil => exact .nil
  | cons row rows ih =>
      obtain ⟨⟨hp, hb, ha⟩, h⟩ := List.forall_mem_cons.1 h
      rw [List.map_cons, show change row = (row.1, (change row).2.1, (change row).2.2) by
        rw [← hp]]
      exact .cons hb ha (ih h)

theorem Rising.within_refresh (h : Rising f g rows) (p : Position) :
    Within rows (refresh f g p rows) := by
  refine Within.of_map fun row hrow => ?_
  split
  · next hp =>
      subst hp
      exact ⟨rfl, h row hrow⟩
  · exact ⟨rfl, NameSet.subset_refl _, NameSet.subset_refl _⟩

/-- Recomputing one instruction leaves the rows rising: they only grow by it, and what an
instruction is recomputed to grows with them. -/
theorem Rising.refresh (h : Rising f g rows) (p : Position) :
    Rising f g (refresh f g p rows) := by
  have hw := h.within_refresh p
  intro row' hrow'
  obtain ⟨row, hrow, rfl⟩ := List.mem_map.1 hrow'
  split
  · exact ⟨hw.recomputeBefore_subset p, hw.recomputeAfter_subset p⟩
  · obtain ⟨hb, ha⟩ := h row hrow
    exact ⟨NameSet.subset_trans hb (hw.recomputeBefore_subset row.1),
      NameSet.subset_trans ha (hw.recomputeAfter_subset row.1)⟩

/-- The rows mention only the given names. -/
def Bounded (names : NameSet) (rows : List (Position × NameSet × NameSet)) : Prop :=
  ∀ row ∈ rows, row.2.1 ⊆ names ∧ row.2.2 ⊆ names

theorem Bounded.before_subset {names : NameSet} (h : Bounded names rows) (p : Position) :
    before rows p ⊆ names := by
  intro x hx
  simp only [before] at hx
  cases hl : rows.lookup p with
  | none => simp [hl] at hx
  | some row =>
      obtain ⟨l₁, l₂, hrows, -⟩ := List.lookup_eq_some_iff.1 hl
      simp only [hl, Option.map_some, Option.getD_some] at hx
      exact (h (p, row) (by simp [hrows])).1 x hx

theorem Bounded.refresh (h : Bounded f.usedNames rows) (p : Position) :
    Bounded f.usedNames (refresh f g p rows) := by
  have hafter : recomputeAfter g rows p ⊆ f.usedNames := by
    intro x hx
    obtain ⟨q, -, hx⟩ := mem_beforeAny.1 hx
    exact h.before_subset q x hx
  intro row' hrow'
  obtain ⟨row, hrow, rfl⟩ := List.mem_map.1 hrow'
  split
  · refine ⟨fun x hx => ?_, hafter⟩
    simp only [recomputeBefore, NameSet.mem_union, NameSet.mem_filter] at hx
    rcases hx with hx | ⟨hx, -⟩
    · exact f.usesAt_subset_usedNames p x hx
    · exact hafter x hx
  · exact h row hrow

/-- How many names the sets could still take in. -/
def room (names : NameSet) : List (Position × NameSet × NameSet) → Nat
  | [] => 0
  | (_, b, a) :: rows => (names.size - b.size) + (names.size - a.size) + room names rows

theorem Within.room_le {names : NameSet} (h : Within rows rows') :
    room names rows' ≤ room names rows := by
  induction h with
  | nil => exact Nat.le_refl _
  | cons hb ha _ ih =>
      have hb := NameSet.size_le_of_subset hb
      have ha := NameSet.size_le_of_subset ha
      simp only [room]
      omega

/-- Growing takes up room. -/
theorem Within.room_lt {names : NameSet} (h : Within rows rows') (hn : Bounded names rows')
    (hne : rows ≠ rows') : room names rows' < room names rows := by
  induction h with
  | nil => exact absurd rfl hne
  | @cons p b b' a a' rows rows' hb ha h ih =>
      obtain ⟨⟨hb', ha'⟩, hn⟩ := List.forall_mem_cons.1 hn
      have hb' : b'.size ≤ names.size := NameSet.size_le_of_subset hb'
      have ha' : a'.size ≤ names.size := NameSet.size_le_of_subset ha'
      have hle : room names rows' ≤ room names rows := h.room_le
      have hb₁ := NameSet.size_le_of_subset hb
      have ha₁ := NameSet.size_le_of_subset ha
      simp only [room]
      by_cases eb : b = b'
      · by_cases ea : a = a'
        · have hlt := ih hn fun e => hne (by rw [eb, ea, e])
          omega
        · have ha₂ := NameSet.size_lt_of_subset_of_ne ha ea
          omega
      · have hb₂ := NameSet.size_lt_of_subset_of_ne hb eb
        omega

/-- Rows on the way to the result. -/
structure Stage (f : Function) (g : InstructionGraph) where
  rows : List (Position × NameSet × NameSet)
  rising : Rising f g rows
  bounded : Bounded f.usedNames rows

namespace Stage

/-- Nothing is known to be live yet. -/
def initial (f : Function) (g : InstructionGraph) : Stage f g where
  rows := g.nodes.map fun p => (p, ∅, ∅)
  rising := by
    intro row hrow
    obtain ⟨p, -, rfl⟩ := List.mem_map.1 hrow
    exact ⟨fun x hx => absurd hx (NameSet.not_mem_empty x),
      fun x hx => absurd hx (NameSet.not_mem_empty x)⟩
  bounded := by
    intro row hrow
    obtain ⟨p, -, rfl⟩ := List.mem_map.1 hrow
    exact ⟨fun x hx => absurd hx (NameSet.not_mem_empty x),
      fun x hx => absurd hx (NameSet.not_mem_empty x)⟩

/-- The rows with one instruction recomputed. -/
def refresh (p : Position) (s : Stage f g) : Stage f g where
  rows := Liveness.refresh f g p s.rows
  rising := s.rising.refresh p
  bounded := s.bounded.refresh p

/-- The rows with all instructions recomputed, from the last to the first. -/
def next (s : Stage f g) : Stage f g := g.nodes.foldr refresh s

theorem within_foldr_refresh (ps : List Position) (s : Stage f g) :
    Within s.rows (ps.foldr refresh s).rows := by
  induction ps with
  | nil => exact .refl _
  | cons p ps ih => exact ih.trans ((ps.foldr refresh s).rising.within_refresh p)

theorem within_next (s : Stage f g) : Within s.rows s.next.rows :=
  within_foldr_refresh g.nodes s

/-- Go on until a round changes nothing. Each round before takes up room. -/
def settle (s : Stage f g) : Stage f g :=
  if _h : s.next.rows = s.rows then s else settle s.next
termination_by room f.usedNames s.rows
decreasing_by exact s.within_next.room_lt s.next.bounded (Ne.symm _h)

end Stage

/-- Liveness on the given instruction graph of a function. -/
def ofGraph (f : Function) (g : InstructionGraph) : Liveness where
  rows := (Stage.initial f g).settle.rows
  start := g.start

def ofFunction (f : Function) : Except Error Liveness :=
  (InstructionGraph.ofFunction f).map (ofGraph f)

/-- The names live before an instruction. -/
def liveIn? (l : Liveness) (p : Position) : Option NameSet := (l.rows.lookup p).map Prod.fst

/-- The names live after an instruction. -/
def liveOut? (l : Liveness) (p : Position) : Option NameSet := (l.rows.lookup p).map Prod.snd

/-- The names live where the function starts. -/
def entryLive (l : Liveness) : NameSet := (l.start.bind l.liveIn?).getD ∅

end Liveness

end SsaIr
