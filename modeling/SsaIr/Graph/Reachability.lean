/-!
# Reachability in a finite graph

A graph is given by a list of nodes and a successor function. Searching removes each node from the
unseen ones when it is first met, so the search ends, and what is left unseen is what cannot be
reached. The main statement is `mem_reachable_iff`: the search finds the nodes that paths through
nodes lead to, and no others.
-/

namespace SsaIr.Reachability

variable {α : Type}

/-- A path through nodes leads to this node from a starting node. -/
inductive Reached (next : α → List α) (nodes starts : List α) : α → Prop where
  | start {a : α} : a ∈ starts → a ∈ nodes → Reached next nodes starts a
  | step {a b : α} : Reached next nodes starts a → b ∈ next a → b ∈ nodes →
      Reached next nodes starts b

theorem Reached.mem_nodes {next : α → List α} {nodes starts : List α} {a : α}
    (h : Reached next nodes starts a) : a ∈ nodes := by
  cases h with
  | start _ h => exact h
  | step _ _ h => exact h

variable [DecidableEq α]

/-- The members of a list that differ from the given one. -/
def without (a : α) (l : List α) : List α := l.filter (· ≠ a)

theorem mem_without {a b : α} {l : List α} : b ∈ without a l ↔ b ∈ l ∧ b ≠ a := by
  simp [without]

theorem length_without_lt {a : α} {l : List α} (h : a ∈ l) : (without a l).length < l.length :=
  List.length_filter_lt_length_iff_exists.2 ⟨a, h, by simp⟩

/-- The nodes among `unseen` that are not met when successors are followed from `pending` through
unseen nodes. -/
def unreached (next : α → List α) (unseen pending : List α) : List α :=
  match pending with
  | [] => unseen
  | a :: rest =>
    if a ∈ unseen then unreached next (without a unseen) (next a ++ rest)
    else unreached next unseen rest
termination_by (unseen.length, pending.length)
decreasing_by
  · next h => exact Prod.Lex.left _ _ (length_without_lt h)
  · exact Prod.Lex.right _ (by simp)

/-- The nodes that paths through nodes lead to from the starting nodes, in the order of the
nodes. -/
def reachable (next : α → List α) (nodes starts : List α) : List α :=
  let left := unreached next nodes starts
  nodes.filter (· ∉ left)

variable {next : α → List α} {unseen pending nodes starts : List α} {a b : α}

theorem mem_of_mem_unreached (h : a ∈ unreached next unseen pending) : a ∈ unseen := by
  fun_induction unreached next unseen pending with
  | case1 => exact h
  | case2 unseen p rest hp ih => exact (mem_without.1 (ih h)).1
  | case3 unseen p rest hp ih => exact ih h

theorem not_mem_unreached_of_mem_pending (ha : a ∈ pending) :
    a ∉ unreached next unseen pending := by
  fun_induction unreached next unseen pending with
  | case1 => simp at ha
  | case2 unseen p rest hp ih =>
      rcases List.mem_cons.1 ha with rfl | ha
      · intro h
        exact (mem_without.1 (mem_of_mem_unreached h)).2 rfl
      · exact ih (List.mem_append_right _ ha)
  | case3 unseen p rest hp ih =>
      rcases List.mem_cons.1 ha with rfl | ha
      · exact fun h => hp (mem_of_mem_unreached h)
      · exact ih ha

theorem not_mem_unreached_of_mem_next (ha : a ∈ unseen) (hr : a ∉ unreached next unseen pending)
    (hb : b ∈ next a) : b ∉ unreached next unseen pending := by
  fun_induction unreached next unseen pending with
  | case1 => exact absurd ha hr
  | case2 unseen p rest hp ih =>
      by_cases hap : a = p
      · subst hap
        exact not_mem_unreached_of_mem_pending (List.mem_append_left _ hb)
      · exact ih (mem_without.2 ⟨ha, hap⟩) hr
  | case3 unseen p rest hp ih => exact ih ha hr

theorem reached_of_not_mem_unreached (ha : a ∈ unseen)
    (hr : a ∉ unreached next unseen pending) : Reached next unseen pending a := by
  fun_induction unreached next unseen pending with
  | case1 => exact absurd ha hr
  | case2 unseen p rest hp ih =>
      have start : Reached next unseen (p :: rest) p := .start (by simp) hp
      by_cases hap : a = p
      · exact hap ▸ start
      · have inner := ih (mem_without.2 ⟨ha, hap⟩) hr
        clear ih hr ha hap
        induction inner with
        | start hs hn =>
            have hn := (mem_without.1 hn).1
            rcases List.mem_append.1 hs with hs | hs
            · exact .step start hs hn
            · exact .start (List.mem_cons_of_mem _ hs) hn
        | step _ hb hn ih => exact .step ih hb (mem_without.1 hn).1
  | case3 unseen p rest hp ih =>
      have inner := ih ha hr
      clear ih hr ha
      induction inner with
      | start hs hn => exact .start (List.mem_cons_of_mem _ hs) hn
      | step _ hb hn ih => exact .step ih hb hn

/-- Searching finds exactly the nodes that paths lead to. -/
theorem mem_reachable_iff : a ∈ reachable next nodes starts ↔ Reached next nodes starts a := by
  simp only [reachable, List.mem_filter, decide_eq_true_eq]
  constructor
  · rintro ⟨ha, hr⟩
    exact reached_of_not_mem_unreached ha hr
  · intro h
    refine ⟨h.mem_nodes, ?_⟩
    induction h with
    | start hs _ => exact not_mem_unreached_of_mem_pending hs
    | step ha hb _ ih => exact not_mem_unreached_of_mem_next ha.mem_nodes ih hb

end SsaIr.Reachability
