import SsaIr.Proofs.Text.Nesting
import SsaIr.Value.Parser

/-!
# Cutting at the commas of the top level

Operands are cut apart at the commas of the top level and nowhere else, and a text is refused
exactly if its brackets or its quotes do not match. Both are said of the nesting in front of each
character, without the cut. The parts, written with commas between them, are cut into themselves.
-/

namespace SsaIr

namespace Text

open Nesting

variable {n m : Nesting} {c : Char} {s p : List Char} {ps parts : List (List Char)} {start : Nat}
  {cuts : List Nat}

/-- A bracket closes that is not open, or at the end a bracket or a quotation still is. -/
def Unmatched (s : List Char) : Prop :=
  (∃ front, front <+: s ∧ (Nesting.run {} front).depth < 0) ∨
    (Nesting.run {} s).depth ≠ 0 ∨ (Nesting.run {} s).quoted = true

/-- The positions of the commas at the top level. -/
def topCommas (n : Nesting) (s : List Char) : List Nat :=
  (List.range s.length).filter fun i => s[i]? == some ',' && (n.run (s.take i)).isTop

/-- What stands from `start` up to the first cut, between one cut and the next, and behind the
last. -/
def segmentsBetween (s : List Char) (start : Nat) : List Nat → List (List Char)
  | [] => [s.drop start]
  | cut :: cuts => (s.take cut).drop start :: segmentsBetween s (cut + 1) cuts

/-! ## Matching brackets and quotes -/

/-- A walk without stopping characters only has to keep the depth from going below zero. -/
theorem Nesting.walk?_eq_some_iff (hn : 0 ≤ n.depth) :
    n.walk? (fun _ => false) s = some m ↔
      n.run s = m ∧ ∀ front, front <+: s → 0 ≤ (n.run front).depth := by
  induction s generalizing n with
  | nil =>
      simp only [walk?, run_nil, Option.some.injEq, List.prefix_nil, forall_eq]
      exact ⟨fun h => ⟨h, hn⟩, fun h => h.1⟩
  | cons c s ih =>
      rw [walk?, if_neg (fun hf => Bool.false_ne_true hf.1), run_cons]
      by_cases hd : (n.step c).depth < 0
      · rw [if_pos hd]
        refine iff_of_false (fun h => by cases h) fun h => ?_
        have hfront : [c] <+: c :: s := List.prefix_append [c] s
        exact absurd (h.2 [c] hfront) (Int.not_le.2 hd)
      · rw [if_neg hd, ih (Int.not_lt.1 hd)]
        refine and_congr_right fun _ => ⟨fun h front hfront => ?_, fun h front hfront => ?_⟩
        · rcases List.prefix_cons_iff.1 hfront with rfl | ⟨rest, rfl, hrest⟩
          · exact hn
          · exact h rest hrest
        · exact h (c :: front) (List.cons_prefix_cons.2 ⟨rfl, hfront⟩)

theorem balanced_iff_not_unmatched : Balanced s ↔ ¬Unmatched s := by
  rw [Balanced, walk?_eq_some_iff (Int.le_refl 0), Unmatched]
  constructor
  · rintro ⟨hrun, hfront⟩ (⟨front, hf, hneg⟩ | hdepth | hquoted)
    · exact absurd (hfront front hf) (Int.not_le.2 hneg)
    · exact hdepth (by rw [hrun])
    · rw [hrun] at hquoted
      cases hquoted
  · intro h
    simp only [not_or, not_exists, not_and, Int.not_lt, not_not, Bool.not_eq_true] at h
    obtain ⟨hfront, hdepth, hquoted⟩ := h
    refine ⟨?_, hfront⟩
    apply eq_top_of_isTop
    rw [isTop, hdepth, hquoted]
    rfl

/-- A text that is walked through up to the top level is cut. -/
theorem exists_segments? (h : n.walk? (fun _ => false) s = some {}) :
    ∃ parts, segments? n s = some parts := by
  induction s generalizing n with
  | nil =>
      obtain rfl := Option.some.inj h
      exact ⟨[[]], rfl⟩
  | cons c s ih =>
      rw [walk?, if_neg (fun hf => Bool.false_ne_true hf.1)] at h
      split at h
      · cases h
      · next hd =>
          obtain ⟨parts, hparts⟩ := ih h
          rw [segments?]
          split
          · next hc =>
              rw [hc.1, step_comma] at hparts
              exact ⟨[] :: parts, by rw [hparts]; rfl⟩
          · dsimp only
            rw [if_neg hd, hparts]
            exact ⟨consHead c parts, rfl⟩

/-- A text without parts is not blank, and its brackets or quotes do not match. -/
theorem splitTop?_eq_none_iff : splitTop? s = none ↔ allBlank s = false ∧ Unmatched s := by
  constructor
  · intro h
    rw [splitTop?] at h
    split at h
    · cases h
    · next hblank =>
        refine ⟨Bool.eq_false_iff.2 hblank, ?_⟩
        by_contra hmatched
        obtain ⟨parts, hparts⟩ := exists_segments? (balanced_iff_not_unmatched.2 hmatched)
        rw [hparts] at h
        cases h
  · rintro ⟨-, hunmatched⟩
    cases h : splitTop? s with
    | none => rfl
    | some parts =>
        exact absurd hunmatched (balanced_iff_not_unmatched.1 (balanced_of_splitTop? h))

/-! ## The cuts -/

/-- A comma at the start is the first cut, if it stands at the top level. -/
theorem topCommas_cons :
    topCommas n (c :: s) =
      (if c = ',' ∧ n.isTop = true then [0] else []) ++ (topCommas (n.step c) s).map (· + 1) := by
  have htail : (List.range s.length).filter
      ((fun i => (c :: s)[i]? == some ',' && (n.run ((c :: s).take i)).isTop) ∘ Nat.succ) =
        topCommas (n.step c) s := rfl
  rw [topCommas, List.length_cons, List.range_succ_eq_map, List.filter_cons, List.filter_map, htail]
  by_cases hc : c = ',' ∧ n.isTop = true
  · rw [if_pos hc, if_pos (by simp [hc])]
    rfl
  · rw [if_neg hc, if_neg (by simpa using hc)]
    rfl

theorem segmentsBetween_cons_succ :
    segmentsBetween (c :: s) (start + 1) (cuts.map (· + 1)) = segmentsBetween s start cuts := by
  induction cuts generalizing start with
  | nil => rfl
  | cons cut cuts ih =>
      rw [List.map_cons, segmentsBetween, segmentsBetween, ih]
      rfl

theorem segmentsBetween_cons_zero :
    segmentsBetween (c :: s) 0 (cuts.map (· + 1)) = consHead c (segmentsBetween s 0 cuts) := by
  cases cuts with
  | nil => rfl
  | cons cut cuts =>
      rw [List.map_cons, segmentsBetween, segmentsBetween, segmentsBetween_cons_succ]
      rfl

theorem length_segmentsBetween : (segmentsBetween s start cuts).length = cuts.length + 1 := by
  induction cuts generalizing start with
  | nil => rfl
  | cons cut cuts ih => rw [segmentsBetween, List.length_cons, ih, List.length_cons]

/-- The segments stand between the commas of the top level. -/
theorem segments?_eq_segmentsBetween (h : segments? n s = some parts) :
    parts = segmentsBetween s 0 (topCommas n s) := by
  induction s generalizing n parts with
  | nil =>
      rw [segments?, Option.ite_none_right_eq_some] at h
      exact (Option.some.inj h.2).symm
  | cons c s ih =>
      rw [segments?] at h
      rw [topCommas_cons]
      split at h
      · next hc =>
          obtain ⟨rest, hrest, rfl⟩ := Option.map_eq_some_iff.1 h
          rw [if_pos hc, hc.1, step_comma, List.singleton_append, segmentsBetween,
            segmentsBetween_cons_succ, ← ih hrest]
          rfl
      · next hc =>
          dsimp only at h
          split at h
          · cases h
          · obtain ⟨rest, hrest, rfl⟩ := Option.map_eq_some_iff.1 h
            rw [if_neg hc, List.nil_append, segmentsBetween_cons_zero, ← ih hrest]

/-- The parts of a text are what stands between the commas of the top level, trimmed. -/
theorem splitTop?_eq_segmentsBetween (h : splitTop? s = some parts) (hs : allBlank s = false) :
    parts = (segmentsBetween s 0 (topCommas {} s)).map trim := by
  rw [splitTop?, hs, if_neg Bool.false_ne_true] at h
  obtain ⟨segments, hsegments, rfl⟩ := Option.map_eq_some_iff.1 h
  rw [segments?_eq_segmentsBetween hsegments]

theorem splitTop?_eq_some_iff :
    splitTop? s = some parts ↔
      (allBlank s = true ∧ parts = []) ∨
        (allBlank s = false ∧ ¬Unmatched s ∧
          parts = (segmentsBetween s 0 (topCommas {} s)).map trim) := by
  cases hblank : allBlank s with
  | true => simp [splitTop?, hblank, eq_comm]
  | false =>
      simp only [Bool.false_eq_true, false_and, true_and, false_or]
      constructor
      · intro h
        exact ⟨balanced_iff_not_unmatched.1 (balanced_of_splitTop? h),
          splitTop?_eq_segmentsBetween h hblank⟩
      · rintro ⟨hmatched, rfl⟩
        cases h : splitTop? s with
        | none => exact absurd (splitTop?_eq_none_iff.1 h).2 hmatched
        | some parts => rw [splitTop?_eq_segmentsBetween h hblank]

/-! ## Joining with commas -/

/-- The parts of a text are cut apart again where they are joined. -/
theorem splitTop?_intercalate_of_splitTop? (h : splitTop? s = some parts) :
    splitTop? ([',', ' '].intercalate parts) = some parts := by
  apply splitTop?_intercalate_of_trim
  · rintro rfl
    rcases splitTop?_eq_some h with ⟨hnil, -⟩ | ⟨p, ps, hparts, rfl, -⟩
    · cases hnil
    · -- One empty part would be a blank text, which has no parts.
      obtain ⟨hp, hps⟩ := List.cons.inj hparts
      obtain rfl := List.map_eq_nil_iff.1 hps.symm
      have hblank : allBlank p = true := allBlank_of_trim_eq_nil hp.symm
      rw [List.flatMap_nil, List.append_nil, splitTop?, hblank] at h
      cases h
  · intro p hp
    refine ⟨?_, piece_of_mem_splitTop? h hp⟩
    rcases nil_or_solid_of_mem_splitTop? h hp with rfl | hsolid
    · rfl
    · exact hsolid.trim_eq

end Text

open Text

/-- A text is refused exactly if it is not blank and its brackets or quotes do not match. Otherwise
its parts are the trimmed segments between the commas of the top level, one more than there are
such commas, and none if it is blank. The parts with commas between them are cut into themselves. -/
theorem splitOperands_at_topCommas (s : List Char) :
    (∀ e, splitOperands s = .error e ↔
      e = .unbalancedBrackets (String.ofList s) ∧ allBlank s = false ∧ Unmatched s) ∧
    (∀ parts, splitOperands s = .ok parts ↔
      (allBlank s = true ∧ parts = []) ∨
        (allBlank s = false ∧ ¬Unmatched s ∧
          parts = (segmentsBetween s 0 (topCommas {} s)).map trim)) ∧
    ∀ parts, splitOperands s = .ok parts →
      (allBlank s = false → parts.length = (topCommas {} s).length + 1) ∧
        splitOperands ([',', ' '].intercalate parts) = .ok parts := by
  refine ⟨fun e => ?_, fun parts => ?_, fun parts h => ⟨fun hblank => ?_, ?_⟩⟩
  · rw [splitOperands_eq_error_iff, splitTop?_eq_none_iff]
  · rw [splitOperands_eq_ok_iff, splitTop?_eq_some_iff]
  · rw [splitOperands_eq_ok_iff] at h
    rw [splitTop?_eq_segmentsBetween h hblank, List.length_map, length_segmentsBetween]
  · rw [splitOperands_eq_ok_iff] at h ⊢
    exact splitTop?_intercalate_of_splitTop? h

/-- Commas in brackets and between quotes do not cut, and a part may be empty. -/
theorem splitOperands_at_topCommas_nested :
    splitOperands "a (b, [c]),, \" ,(\" d".toList =
        .ok ["a (b, [c])".toList, [], "\" ,(\" d".toList] ∧
      topCommas {} "a (b, [c]),, \" ,(\" d".toList = [10, 11] ∧
      splitOperands "a (b, [c]), , \" ,(\" d".toList =
        .ok ["a (b, [c])".toList, [], "\" ,(\" d".toList] := by
  have hparts : splitOperands "a (b, [c]),, \" ,(\" d".toList =
      .ok ["a (b, [c])".toList, [], "\" ,(\" d".toList] := rfl
  exact ⟨hparts, rfl, ((splitOperands_at_topCommas _).2.2 _ hparts).2⟩

end SsaIr
