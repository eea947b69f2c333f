import SsaIr.Proofs.Coloring
import SsaIr.Proofs.Liveness

/-!
# Names that are live together

The interference graph has an edge for a definition and a name live behind it, and edges between
the parameters and what is live at the entry. Where control can come to, any two names that are
live at once have an edge: whichever of them was defined last, the other one was live behind that
definition.
-/

namespace SsaIr

namespace InterferenceGraph

variable {f : Function} {l : Liveness} {c : InstructionGraph} {g : InterferenceGraph}
variable {p q : Position} {x y : String}

theorem mem_foldr_union {sets : List NameSet} {s : NameSet} :
    x ∈ sets.foldr (· ∪ ·) s ↔ x ∈ s ∨ ∃ t ∈ sets, x ∈ t := by
  induction sets with
  | nil => simp
  | cons t sets ih =>
      rw [List.foldr_cons, NameSet.mem_union, ih]
      simp only [List.mem_cons, exists_eq_or_imp]
      exact or_left_comm

/-- A definition clashes with what is live behind it, and a parameter with the other parameters
and with what is live at the entry. -/
theorem mem_clashes_iff : y ∈ clashes f l x ↔ y ≠ x ∧
    (f.isParameter x = true ∧ (f.isParameter y = true ∨ y ∈ l.entryLive) ∨
      ∃ p, x ∈ f.definesAt p ∧ l.LiveAfter p y) := by
  unfold clashes
  rw [NameSet.mem_erase, mem_foldr_union, and_comm]
  refine and_congr_right fun _ => or_congr ?_ ?_
  · by_cases hx : f.isParameter x = true
    · have hy : y ∈ f.parameterNames ↔ f.isParameter y = true := by simp [Function.isParameter]
      simp only [hx, if_true, NameSet.mem_union, NameSet.mem_ofList, hy, true_and]
    · simp [hx]
  · simp only [List.mem_map, List.mem_filter, Prod.exists, Function.mem_located,
      decide_eq_true_eq, Function.mem_definesAt, Instruction.mem_defines]
    constructor
    · rintro ⟨t, ⟨p, i, ⟨hi, hx⟩, rfl⟩, hy⟩
      refine ⟨p, ⟨i, hi, hx⟩, ?_⟩
      cases hout : l.liveOut? p with
      | none => simp [hout] at hy
      | some names => exact ⟨names, hout, by simpa [hout] using hy⟩
    · rintro ⟨p, ⟨i, hi, hx⟩, names, hout, hy⟩
      exact ⟨_, ⟨p, i, ⟨hi, hx⟩, rfl⟩, by simpa [hout] using hy⟩

theorem mem_names_ofLiveness : x ∈ (ofLiveness f l).names ↔
    f.isParameter x = true ∨ ∃ p, x ∈ f.definesAt p ∨ x ∈ f.usesAt p := by
  simp only [ofLiveness, NameSet.mem_ofList, List.mem_append, List.mem_flatMap,
    NameSet.mem_toList, Function.mem_instructions, Function.mem_definesAt, Function.mem_usesAt]
  refine or_congr (by simp [Function.isParameter]) ?_
  constructor
  · rintro ⟨i, ⟨p, hi⟩, hx⟩
    exact ⟨p, hx.imp (fun hx => ⟨i, hi, hx⟩) fun hx => ⟨i, hi, hx⟩⟩
  · rintro ⟨p, ⟨i, hi, hx⟩ | ⟨i, hi, hx⟩⟩
    · exact ⟨i, ⟨p, hi⟩, .inl hx⟩
    · exact ⟨i, ⟨p, hi⟩, .inr hx⟩

/-- Two names interfere if either one clashes with the other. -/
theorem interferes_ofLiveness : (ofLiveness f l).interferes x y = true ↔
    x ∈ (ofLiveness f l).names ∧ y ∈ (ofLiveness f l).names ∧
      (y ∈ clashes f l x ∨ x ∈ clashes f l y) := by
  unfold interferes neighbors
  rw [decide_eq_true_eq]
  by_cases hx : x ∈ (ofLiveness f l).names
  · rw [if_pos hx, NameSet.mem_filter, decide_eq_true_eq]
    by_cases hy : y ∈ (ofLiveness f l).names
    · simp only [hx, hy, true_and, and_true]
      simp only [ofLiveness] at hx hy ⊢
      simp [lookup_map_key hx, lookup_map_key hy, hy]
    · simp [hy]
  · simp [hx]

theorem interferes_comm_ofLiveness (x y : String) :
    (ofLiveness f l).interferes x y = (ofLiveness f l).interferes y x := by
  rw [Bool.eq_iff_iff, interferes_ofLiveness, interferes_ofLiveness, or_comm]
  exact and_left_comm

theorem interferes_self_ofLiveness (x : String) :
    (ofLiveness f l).interferes x x = false := by
  rw [Bool.eq_false_iff]
  intro h
  obtain ⟨-, -, h | h⟩ := interferes_ofLiveness.1 h
  · exact (mem_clashes_iff.1 h).1 rfl
  · exact (mem_clashes_iff.1 h).1 rfl

theorem ofFunction_eq_ok_iff :
    ofFunction f = .ok g ↔ ∃ l, Liveness.ofFunction f = .ok l ∧ ofLiveness f l = g :=
  map_eq_ok_iff

theorem interferes_comm_of_ofFunction (h : ofFunction f = .ok g) (x y : String) :
    g.interferes x y = g.interferes y x := by
  obtain ⟨l, -, rfl⟩ := ofFunction_eq_ok_iff.1 h
  exact interferes_comm_ofLiveness x y

theorem interferes_self_of_ofFunction (h : ofFunction f = .ok g) (x : String) :
    g.interferes x x = false := by
  obtain ⟨l, -, rfl⟩ := ofFunction_eq_ok_iff.1 h
  exact interferes_self_ofLiveness x

theorem mem_names_of_liveBefore (hl : Liveness.ofFunction f = .ok l) (hx : l.LiveBefore p x) :
    x ∈ (ofLiveness f l).names := by
  have hpath := (Liveness.liveBefore_iff_usedAlongPath hl).1 hx
  obtain ⟨q, hq⟩ := Function.exists_mem_usesAt_of_usedAlongPath hpath
  exact mem_names_ofLiveness.2 (.inr ⟨q, .inr hq⟩)

theorem mem_names_of_liveAfter (hl : Liveness.ofFunction f = .ok l) (hx : l.LiveAfter p x) :
    x ∈ (ofLiveness f l).names := by
  obtain ⟨q, -, hq⟩ := (Liveness.liveAfter_iff hl).1 hx
  exact mem_names_of_liveBefore hl hq

/-- Where all names live before an instruction interfere, so do all names live after it: one that
the instruction defines clashes with the others, and all others were live before. -/
theorem interferes_of_liveAfter (hl : Liveness.ofFunction f = .ok l)
    (hbefore : ∀ x y, x ≠ y → l.LiveBefore p x → l.LiveBefore p y →
      (ofLiveness f l).interferes x y = true)
    (hne : x ≠ y) (hx : l.LiveAfter p x) (hy : l.LiveAfter p y) :
    (ofLiveness f l).interferes x y = true := by
  have hp : (f.instruction? p).isSome := by
    obtain ⟨q, hpq, -⟩ := (Liveness.liveAfter_iff hl).1 hx
    exact hpq.1
  have hnx := mem_names_of_liveAfter hl hx
  have hny := mem_names_of_liveAfter hl hy
  by_cases hdx : x ∈ f.definesAt p
  · apply interferes_ofLiveness.2
    exact ⟨hnx, hny, .inl (mem_clashes_iff.2 ⟨hne.symm, .inr ⟨p, hdx, hy⟩⟩)⟩
  · by_cases hdy : y ∈ f.definesAt p
    · apply interferes_ofLiveness.2
      exact ⟨hnx, hny, .inr (mem_clashes_iff.2 ⟨hne, .inr ⟨p, hdy, hx⟩⟩)⟩
    · have hiff := fun x => (Liveness.solvesLiveness hl).before_iff (x := x) hp
      exact hbefore x y hne ((hiff x).2 (.inr ⟨hx, hdx⟩)) ((hiff y).2 (.inr ⟨hy, hdy⟩))

/-- Where control can come to, all names live before an instruction interfere. -/
theorem interferes_of_liveBefore (hl : Liveness.ofFunction f = .ok l)
    (hc : InstructionGraph.ofFunction f = .ok c)
    (hentry : ∀ x ∈ l.entryLive, f.isParameter x = true) (hp : p ∈ c.reachable)
    (hne : x ≠ y) (hx : l.LiveBefore p x) (hy : l.LiveBefore p y) :
    (ofLiveness f l).interferes x y = true := by
  induction Reachability.mem_reachable_iff.1 hp generalizing x y with
  | @start p hstart _ =>
      have hat : ∀ x, l.LiveBefore p x → f.isParameter x = true := by
        intro x hx
        apply hentry
        apply Liveness.mem_entryLive_iff.2
        exact ⟨p, (Liveness.start_of_ofFunction hl hc).trans (Option.mem_toList.1 hstart), hx⟩
      have hpx := hat x hx
      have hpy := hat y hy
      apply interferes_ofLiveness.2
      exact ⟨mem_names_of_liveBefore hl hx, mem_names_of_liveBefore hl hy,
        .inl (mem_clashes_iff.2 ⟨hne.symm, .inl ⟨hpx, .inl hpy⟩⟩)⟩
  | @step p q hreach hq _ ih =>
      have hstep : f.Steps p q := (InstructionGraph.mem_targets_iff hc).1 hq
      have hafter : ∀ x, l.LiveBefore q x → l.LiveAfter p x := fun x hx =>
        (Liveness.liveAfter_iff hl).2 ⟨q, hstep, hx⟩
      refine interferes_of_liveAfter hl ?_ hne (hafter x hx) (hafter y hy)
      intro x y hne hx hy
      exact ih (Reachability.mem_reachable_iff.2 hreach) hne hx hy

/-- Where control can come to, all names live before or after an instruction interfere. -/
theorem interferes_of_live_together (hl : Liveness.ofFunction f = .ok l)
    (hc : InstructionGraph.ofFunction f = .ok c)
    (hentry : ∀ x ∈ l.entryLive, f.isParameter x = true) (hp : p ∈ c.reachable) (hne : x ≠ y)
    (hlive : l.LiveBefore p x ∧ l.LiveBefore p y ∨ l.LiveAfter p x ∧ l.LiveAfter p y) :
    (ofLiveness f l).interferes x y = true := by
  rcases hlive with ⟨hx, hy⟩ | ⟨hx, hy⟩
  · exact interferes_of_liveBefore hl hc hentry hp hne hx hy
  · apply interferes_of_liveAfter hl _ hne hx hy
    intro x y hne hx hy
    exact interferes_of_liveBefore hl hc hentry hp hne hx hy

/-- Two names that are live together, before or after an instruction that control can come to,
interfere, and every colouring gives them different colours. Only parameters may be live at the
entry. -/
theorem live_together_apart (hl : Liveness.ofFunction f = .ok l)
    (hc : InstructionGraph.ofFunction f = .ok c) (h : ofFunction f = .ok g)
    (hentry : ∀ x ∈ l.entryLive, f.isParameter x = true) (hp : p ∈ c.reachable) (hne : x ≠ y)
    (hlive : l.LiveBefore p x ∧ l.LiveBefore p y ∨ l.LiveAfter p x ∧ l.LiveAfter p y) :
    g.interferes x y = true ∧ ∀ k colors, g.color? k = some colors →
      ∃ a b, colors.lookup x = some a ∧ colors.lookup y = some b ∧ a ≠ b := by
  obtain ⟨l, hl', rfl⟩ := ofFunction_eq_ok_iff.1 h
  obtain rfl := Except.ok.inj (hl'.symm.trans hl)
  have hxy := interferes_of_live_together hl hc hentry hp hne hlive
  exact ⟨hxy, fun k colors hcolors => exists_colors_of_interferes interferes_comm_ofLiveness
    interferes_self_ofLiveness hcolors hxy⟩

/-- The only name live where `countdown` starts is its parameter. -/
theorem eq_of_usedAlongPath_countdown (h : Liveness.countdown.UsedAlongPath x ⟨0, 1⟩) :
    x = "n" := by
  let table (p : Position) : List String :=
    if p = ⟨0, 1⟩ then ["n"] else if p ∈ [⟨0, 0⟩, ⟨1, 0⟩] then ["i"] else ["i", "j"]
  have huse : ∀ p ∈ Liveness.countdown.positions,
      ∀ x ∈ (Liveness.countdown.usesAt p).toList, x ∈ table p := by decide
  have hstep : ∀ e ∈ Liveness.countdownGraph.edges, ∀ x ∈ table e.2,
      x ∉ Liveness.countdown.definesAt e.1 → x ∈ table e.1 := by decide
  have hmem : x ∈ table ⟨0, 1⟩ := by
    refine h.rec_backwards (P := fun p => x ∈ table p) ?_ ?_
    · intro p hu
      obtain ⟨i, hi, -⟩ := Function.mem_usesAt.1 hu
      exact huse p (Function.mem_positions.2 (by rw [hi]; rfl)) x hu
    · intro p q hpq hd hq
      have htarget := (InstructionGraph.mem_targets_iff Liveness.ofFunction_countdownGraph).2 hpq
      obtain ⟨e, he, rfl⟩ := List.mem_map.1 htarget
      obtain ⟨hedge, hep⟩ := List.mem_filter.1 he
      rw [decide_eq_true_eq] at hep
      subst hep
      exact hstep e hedge x hq hd
  simpa [table] using hmem

/-- The counter and its next value are live together where the loop branches. -/
theorem live_together_apart_countdown :
    ∃ g, ofFunction Liveness.countdown = .ok g ∧ g.interferes "i" "j" = true ∧
      ∀ k colors, g.color? k = some colors →
        ∃ a b, colors.lookup "i" = some a ∧ colors.lookup "j" = some b ∧ a ≠ b := by
  have hl := Liveness.ofFunction_countdown
  have hc := Liveness.ofFunction_countdownGraph
  have hentry : ∀ x ∈ (Liveness.ofGraph Liveness.countdown Liveness.countdownGraph).entryLive,
      Liveness.countdown.isParameter x = true := by
    intro x hx
    obtain ⟨p, hp, hx⟩ := Liveness.mem_entryLive_iff.1 hx
    cases hp
    rw [eq_of_usedAlongPath_countdown ((Liveness.liveBefore_iff_usedAlongPath hl).1 hx)]
    rfl
  have hreach : ⟨1, 1⟩ ∈ Liveness.countdownGraph.reachable := by
    rw [InstructionGraph.reachable, Reachability.mem_reachable_iff]
    have h₀ : Reachability.Reached Liveness.countdownGraph.targets Liveness.countdownGraph.nodes
        Liveness.countdownGraph.start.toList ⟨0, 1⟩ := .start (by decide) (by decide)
    have h₁ := h₀.step (b := ⟨0, 0⟩) (by decide) (by decide)
    have h₂ := h₁.step (b := ⟨1, 0⟩) (by decide) (by decide)
    have h₃ := h₂.step (b := ⟨1, 2⟩) (by decide) (by decide)
    exact h₃.step (by decide) (by decide)
  have huse : Liveness.countdown.UsedAlongPath "i" ⟨1, 0⟩ := .use (by decide)
  have hback : Liveness.countdown.Steps ⟨1, 1⟩ ⟨1, 0⟩ :=
    ⟨rfl, rfl, [⟨1, 0⟩, ⟨2, 0⟩], rfl, by decide⟩
  have hi := (Liveness.liveBefore_iff_usedAlongPath hl).2 (huse.step hback (by decide))
  have hj := (Liveness.liveBefore_iff_usedAlongPath hl).2
    (Function.UsedAlongPath.use (f := Liveness.countdown) (x := "j") (p := ⟨1, 1⟩) (by decide))
  have h : ofFunction Liveness.countdown = .ok (ofLiveness Liveness.countdown
      (Liveness.ofGraph Liveness.countdown Liveness.countdownGraph)) := by
    rw [ofFunction, hl]
    rfl
  exact ⟨_, h, live_together_apart hl hc h hentry hreach (by decide) (.inl ⟨hi, hj⟩)⟩

end InterferenceGraph

end SsaIr
