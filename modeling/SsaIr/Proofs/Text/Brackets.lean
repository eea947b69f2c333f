import Mathlib.Data.List.TakeDrop
import SsaIr.Proofs.Text.Nesting

/-!
# The bracket that matches

A bracket closes where the depth, counted from there and outside quotes, first is zero again. What
is taken from a text that starts with a bracket ends exactly there. So both brackets belong to it,
and what stands between them lies within the text.
-/

namespace SsaIr.Text

open Nesting

variable {n : Nesting} {c o : Char} {s a b : List Char} {start stop : Nat}

/-- Behind the text the depth is zero, and at no point before. -/
def Nesting.ReturnsAfter (n : Nesting) (s : List Char) : Prop :=
  (n.run s).depth = 0 ∧ ∀ i < s.length, (n.run (s.take i)).depth ≠ 0

/-- The bracket at `start` closes directly before `stop`. -/
structure ClosesAt (s : List Char) (start stop : Nat) : Prop where
  inside : start + 2 ≤ stop
  le_length : stop ≤ s.length
  closing : ∃ c, s[stop - 1]? = some c ∧ isClosing c = true
  returns : (Nesting.run {} ((s.take stop).drop start)).depth = 0
  first : ∀ i, start < i → i < stop → (Nesting.run {} ((s.take i).drop start)).depth ≠ 0

namespace Nesting

theorem returnsAfter_nil : n.ReturnsAfter [] ↔ n.depth = 0 :=
  ⟨fun h => h.1, fun h => ⟨h, fun _ hi => absurd hi (Nat.not_lt_zero _)⟩⟩

theorem returnsAfter_cons :
    n.ReturnsAfter (c :: s) ↔ n.depth ≠ 0 ∧ (n.step c).ReturnsAfter s := by
  constructor
  · rintro ⟨hdepth, hfirst⟩
    exact ⟨hfirst 0 (Nat.succ_pos _), hdepth, fun i hi => hfirst (i + 1) (Nat.succ_lt_succ hi)⟩
  · rintro ⟨hn, hdepth, hfirst⟩
    refine ⟨hdepth, fun i hi => ?_⟩
    cases i with
    | zero => exact hn
    | succ i => exact hfirst i (Nat.lt_of_succ_lt_succ hi)

theorem returnsAfter_of_depth (hn : n.depth = 0) : n.ReturnsAfter s ↔ s = [] := by
  cases s with
  | nil => exact iff_of_true (returnsAfter_nil.2 hn) rfl
  | cons c s => exact iff_of_false (fun h => (returnsAfter_cons.1 h).1 hn) (List.cons_ne_nil c s)

/-- Within brackets, only a closing bracket outside quotes leads to depth zero. -/
theorem step_depth_pos (hn : 0 < n.depth)
    (hc : ¬(isClosing c = true ∧ n.quoted = false ∧ (n.step c).depth = 0)) :
    0 < (n.step c).depth := by
  rw [step] at hc ⊢
  split
  · exact hn
  · next hquote =>
      rw [if_neg hquote] at hc
      split
      · exact hn
      · next hquoted =>
          rw [if_neg hquoted] at hc
          split
          · dsimp only
            omega
          · next hopening =>
              rw [if_neg hopening] at hc
              split
              · next hclosing =>
                  rw [if_pos hclosing] at hc
                  have hdepth : n.depth - 1 ≠ 0 := fun hzero =>
                    hc ⟨hclosing, Bool.eq_false_iff.2 hquoted, hzero⟩
                  dsimp only
                  omega
              · exact hn

end Nesting

theorem ne_nil_of_takeBracketed? (h : takeBracketed? n s = some (a, b)) : a ≠ [] := by
  obtain ⟨x, c, rfl, -⟩ := exists_of_takeBracketed? h
  exact List.concat_ne_nil c x

/-- From within brackets, what is taken ends where the depth first is zero. -/
theorem takeBracketed?_inside_iff (hn : 0 < n.depth) :
    takeBracketed? n s = some (a, b) ↔ s = a ++ b ∧ n.ReturnsAfter a := by
  induction s generalizing n a with
  | nil =>
      refine iff_of_false (fun h => by cases h) ?_
      rintro ⟨hs, hreturns⟩
      obtain ⟨rfl, -⟩ := List.append_eq_nil_iff.1 hs.symm
      exact Int.ne_of_gt hn (returnsAfter_nil.1 hreturns)
  | cons d s ih =>
      cases a with
      | nil =>
          exact iff_of_false (fun h => ne_nil_of_takeBracketed? h rfl)
            fun h => Int.ne_of_gt hn (returnsAfter_nil.1 h.2)
      | cons e a =>
          have hne : n.depth ≠ 0 := Int.ne_of_gt hn
          rw [takeBracketed?, List.cons_append, List.cons.injEq, returnsAfter_cons]
          dsimp only
          split
          · next hd =>
              constructor
              · intro h
                obtain ⟨ha, rfl⟩ := Prod.mk.inj (Option.some.inj h)
                obtain ⟨rfl, rfl⟩ := List.cons.inj ha
                exact ⟨⟨rfl, rfl⟩, hne, (returnsAfter_of_depth hd.2.2).2 rfl⟩
              · rintro ⟨⟨rfl, rfl⟩, -, hreturns⟩
                rw [(returnsAfter_of_depth hd.2.2).1 hreturns]
                rfl
          · next hd =>
              rw [map_cons_eq_some_iff]
              constructor
              · rintro ⟨front, ha, hfront⟩
                obtain ⟨rfl, rfl⟩ := List.cons.inj ha
                obtain ⟨hs, hreturns⟩ := (ih (step_depth_pos hn hd)).1 hfront
                exact ⟨⟨rfl, hs⟩, hne, hreturns⟩
              · rintro ⟨⟨rfl, hs⟩, -, hreturns⟩
                exact ⟨a, rfl, (ih (step_depth_pos hn hd)).2 ⟨hs, hreturns⟩⟩

/-- What is taken from an opening bracket ends where the depth first is zero again. -/
theorem takeBracketed?_cons_iff (ho : isOpening o = true) :
    takeBracketed? {} (o :: s) = some (o :: a, b) ↔
      s = a ++ b ∧ (Nesting.step {} o).ReturnsAfter a := by
  have hclosing : isClosing o = false := isClosing_of_isOpening ho
  rw [takeBracketed?]
  dsimp only
  rw [hclosing, if_neg (fun hc => Bool.false_ne_true hc.1)]
  have hopened : 0 < (Nesting.step {} o).depth := by
    rw [step_opening ho]
    decide
  rw [map_cons_eq_some_iff, ← takeBracketed?_inside_iff hopened]
  constructor
  · rintro ⟨front, ha, hfront⟩
    rwa [(List.cons.inj ha).2]
  · exact fun h => ⟨a, rfl, h⟩

/-- A bracket closes behind the text that returns to depth zero. -/
theorem closesAt_iff_returnsAfter (ho : isOpening o = true) (hs : s.drop start = o :: (a ++ b)) :
    ClosesAt s start (start + (a.length + 1)) ↔ (Nesting.step {} o).ReturnsAfter a := by
  have hslice {i : Nat} (hi : i ≤ a.length) :
      Nesting.run {} ((s.take (start + (i + 1))).drop start) =
        (Nesting.step {} o).run (a.take i) := by
    rw [← List.take_drop, hs, List.take_succ_cons, List.take_append_of_le_length hi, run_cons]
  have hself := hslice (Nat.le_refl a.length)
  rw [List.take_length] at hself
  constructor
  · intro h
    refine ⟨hself ▸ h.returns, fun i hi => ?_⟩
    rw [← hslice (Nat.le_of_lt hi)]
    exact h.first _ (by omega) (by omega)
  · intro h
    have htaken := (takeBracketed?_cons_iff (b := b) ho).2 ⟨rfl, h⟩
    obtain ⟨x, c, hx, hc⟩ := exists_of_takeBracketed? htaken
    have hxlength := congrArg List.length hx
    have hlength := congrArg List.length hs
    simp only [List.length_drop, List.length_cons, List.length_append, List.length_nil]
      at hxlength hlength
    refine ⟨?_, by omega, ⟨c, ?_, hc⟩, hself ▸ h.1, fun i hi hstop => ?_⟩
    · cases a with
      | nil =>
          rw [step_opening ho, returnsAfter_nil] at h
          cases h
      | cons d a =>
          rw [List.length_cons]
          omega
    · have hlast : start + (a.length + 1) - 1 = start + x.length := by omega
      rw [hlast, ← List.getElem?_drop, hs, ← List.cons_append, hx]
      simp
    · obtain ⟨i, rfl⟩ := Nat.exists_eq_add_of_lt hi
      rw [Nat.add_assoc, hslice (by omega)]
      exact h.2 i (by omega)

/-- What is taken from the bracket at a position reaches to where that bracket closes. -/
theorem takeBracketed?_drop_iff (hs : s[start]? = some o) (ho : isOpening o = true) :
    takeBracketed? {} (s.drop start) = some (a, b) ↔
      ∃ stop, ClosesAt s start stop ∧ a = (s.take stop).drop start ∧ b = s.drop stop := by
  obtain ⟨hlt, hget⟩ := List.getElem?_eq_some_iff.1 hs
  have hdrop : s.drop start = o :: s.drop (start + 1) := by
    rw [List.drop_eq_getElem_cons hlt, hget]
  constructor
  · intro h
    have hsplit := append_of_takeBracketed? h
    rw [hdrop] at h
    obtain ⟨x, c, rfl, -, -⟩ := takeBracketed?_cons_eq_some ho h
    rw [List.cons_append, takeBracketed?_cons_iff ho] at h
    refine ⟨start + ((x ++ [c]).length + 1), (closesAt_iff_returnsAfter ho hsplit).2 h.2, ?_, ?_⟩
    · rw [← List.take_drop, hsplit, ← List.length_cons, ← List.cons_append, List.take_left]
    · rw [← List.drop_drop, hsplit, ← List.length_cons, ← List.cons_append, List.drop_left]
  · rintro ⟨stop, hcloses, rfl, rfl⟩
    have hinside := hcloses.inside
    have hle := hcloses.le_length
    obtain ⟨k, rfl⟩ := Nat.exists_eq_add_of_lt (show start < stop by omega)
    have hlength : ((s.drop (start + 1)).take k).length = k := by
      apply List.length_take_of_le
      rw [List.length_drop]
      omega
    have hsplit : s.drop start =
        o :: ((s.drop (start + 1)).take k ++ (s.drop (start + 1)).drop k) := by
      rw [List.take_append_drop, hdrop]
    have hfront : (s.take (start + (k + 1))).drop start = o :: (s.drop (start + 1)).take k := by
      rw [← List.take_drop, hdrop, List.take_succ_cons]
    have hback : s.drop (start + (k + 1)) = (s.drop (start + 1)).drop k := by
      rw [List.drop_drop, Nat.add_assoc, Nat.add_comm 1 k]
    rw [Nat.add_assoc] at hcloses ⊢
    have hreturns := (closesAt_iff_returnsAfter ho hsplit).1 (by rwa [hlength])
    rw [hfront, hback, hsplit]
    exact (takeBracketed?_cons_iff ho).2 ⟨rfl, hreturns⟩

/-- Between the two brackets stands what lies strictly between their positions. -/
theorem ClosesAt.between (h : ClosesAt s start stop) :
    ((s.take stop).drop start).tail.dropLast = (s.take (stop - 1)).drop (start + 1) := by
  have hlength : (s.take stop).length = stop := List.length_take_of_le h.le_length
  rw [List.tail_drop, List.dropLast_drop_eq_drop_dropLast, List.dropLast_eq_take, hlength,
    List.take_take, Nat.min_eq_left (Nat.sub_le stop 1)]

end SsaIr.Text
