import SsaIr.Proofs.Text.Blank
import SsaIr.Text.Nesting

/-!
# Balanced texts and pieces

A balanced text leaves the nesting as it was and never closes a bracket that it did not open. A
piece is a balanced text without commas at the top level. Cutting at top-level commas gives pieces,
and joining solid pieces with commas and cutting again gives them back.
-/

namespace SsaIr.Text

namespace Nesting

variable {n m : Nesting} {c : Char} {s t a b : List Char}

theorem isClosing_of_isOpening (h : isOpening c = true) : isClosing c = false := by
  simp only [isOpening, Bool.or_eq_true, beq_iff_eq] at h
  rcases h with ((rfl | rfl) | rfl) | rfl <;> rfl

/-- A character that is neither a bracket nor a quote. -/
def Neutral (c : Char) : Prop := c ≠ '"' ∧ isOpening c = false ∧ isClosing c = false

theorem neutral_of_isBlank (h : isBlank c = true) : Neutral c := by
  refine ⟨?_, ?_, ?_⟩
  · rintro rfl
    cases h
  · rw [Bool.eq_false_iff]
    intro ho
    simp only [isOpening, Bool.or_eq_true, beq_iff_eq] at ho
    rcases ho with ((rfl | rfl) | rfl) | rfl <;> cases h
  · rw [Bool.eq_false_iff]
    intro hc
    simp only [isClosing, Bool.or_eq_true, beq_iff_eq] at hc
    rcases hc with ((rfl | rfl) | rfl) | rfl <;> cases h

theorem step_of_neutral (h : Neutral c) : n.step c = n := by
  obtain ⟨hq, ho, hc⟩ := h
  rw [step, if_neg hq, ho, hc]
  simp

theorem step_comma : n.step ',' = n := step_of_neutral (by unfold Neutral; decide)

theorem run_squeeze : n.run (squeeze s) = n.run s := by
  induction s generalizing n with
  | nil => rfl
  | cons c s ih =>
      cases hc : isBlank c with
      | true =>
          rw [squeeze_cons_of_blank hc, ih, run_cons, step_of_neutral (neutral_of_isBlank hc)]
      | false => rw [squeeze_cons_of_not_blank hc, run_cons, run_cons, ih]

/-- The state with more brackets open around it. -/
def shift (k : Int) (n : Nesting) : Nesting := { n with depth := n.depth + k }

theorem step_shift {k : Int} : (n.shift k).step c = (n.step c).shift k := by
  obtain ⟨depth, quoted⟩ := n
  by_cases hc : c = '"'
  · simp [step, shift, hc]
  · cases quoted with
    | true => simp [step, shift, hc]
    | false =>
        cases ho : isOpening c with
        | true =>
            simp only [step, shift, hc, ho, if_false, if_true, Bool.false_eq_true,
              Nesting.mk.injEq, and_true]
            omega
        | false =>
            cases hl : isClosing c with
            | true =>
                simp only [step, shift, hc, ho, hl, if_false, if_true, Bool.false_eq_true,
                  Nesting.mk.injEq, and_true]
                omega
            | false => simp [step, shift, hc, ho, hl]

/-- An opening bracket leads from the top level into itself. -/
theorem step_opening {o : Char} (ho : isOpening o = true) : step {} o = shift 1 {} := by
  have hquote : o ≠ '"' := by
    rintro rfl
    cases ho
  rw [step, if_neg hquote, ho]
  rfl

theorem run_shift {k : Int} : (n.shift k).run s = (n.run s).shift k := by
  induction s generalizing n with
  | nil => rfl
  | cons c s ih => rw [run_cons, run_cons, step_shift, ih]

/-- Whether a point is quoted, behind a text that starts at a quoted point or does not. -/
def quotedAfter (quoted : Bool) (s : List Char) : Bool :=
  s.foldl (fun quoted c => if c = '"' then !quoted else quoted) quoted

theorem quoted_run : (n.run s).quoted = quotedAfter n.quoted s := by
  induction s generalizing n with
  | nil => rfl
  | cons c s ih =>
      rw [run_cons, ih, quotedAfter, quotedAfter, List.foldl_cons]
      congr 1
      simp only [step]
      split
      · rfl
      · split
        · rfl
        · split
          · rfl
          · split <;> rfl

theorem quotedAfter_not (quoted : Bool) (s : List Char) :
    quotedAfter (!quoted) s = !quotedAfter quoted s := by
  induction s generalizing quoted with
  | nil => rfl
  | cons c s ih =>
      rw [quotedAfter, quotedAfter, List.foldl_cons, List.foldl_cons]
      split
      · exact ih (!quoted)
      · exact ih quoted

/-- A text that comes back to the top level from there comes back to no other state. -/
theorem eq_top_of_run_eq_top (ht : run {} t = {}) (h : m.run t = {}) : m = {} := by
  have hquoted : m.quoted = false := by
    cases hm : m.quoted with
    | false => rfl
    | true =>
        have hflip := quotedAfter_not false t
        rw [← quoted_run (n := {}), ht] at hflip
        have hend : (m.run t).quoted = true := by
          rw [quoted_run, hm]
          exact hflip
        rw [h] at hend
        cases hend
  have hshift : m = shift m.depth {} := by
    cases m
    simp_all [shift]
  rw [hshift, run_shift, ht, ← hshift] at h
  exact h

/-- The state after a text that has no stopping character at the top level and never closes a
bracket that is not open. -/
def walk? (stop : Char → Bool) (n : Nesting) : List Char → Option Nesting
  | [] => some n
  | c :: cs =>
    if stop c = true ∧ n.isTop = true then none
    else if (n.step c).depth < 0 then none
    else walk? stop (n.step c) cs

variable {stop stop' : Char → Bool}

theorem walk?_append :
    n.walk? stop (s ++ t) = (n.walk? stop s).bind fun m => m.walk? stop t := by
  induction s generalizing n with
  | nil => rfl
  | cons c s ih =>
      rw [List.cons_append, walk?, walk?]
      split
      · rfl
      · split
        · rfl
        · exact ih

theorem run_of_walk? (h : n.walk? stop s = some m) : n.run s = m := by
  induction s generalizing n with
  | nil => exact Option.some.inj h
  | cons c s ih =>
      rw [walk?] at h
      split at h
      · cases h
      · split at h
        · cases h
        · exact ih h

theorem walk?_weaken (hstop : ∀ c, stop' c = true → stop c = true)
    (h : n.walk? stop s = some m) : n.walk? stop' s = some m := by
  induction s generalizing n with
  | nil => exact h
  | cons c s ih =>
      rw [walk?] at h ⊢
      split at h
      · cases h
      · next htop =>
          rw [if_neg fun hs => htop ⟨hstop c hs.1, hs.2⟩]
          split at h
          · cases h
          · next hd =>
              rw [if_neg hd]
              exact ih h

/-- Inside a bracket nothing is at the top level. -/
theorem walk?_shift_one (stop : Char → Bool) (hn : 0 ≤ n.depth)
    (h : n.walk? (fun _ => false) s = some m) :
    (n.shift 1).walk? stop s = some (m.shift 1) := by
  induction s generalizing n with
  | nil =>
      cases h
      rfl
  | cons c s ih =>
      rw [walk?] at h ⊢
      rw [if_neg (fun hf => Bool.false_ne_true hf.1)] at h
      split at h
      · cases h
      · next hd =>
          have htop : (n.shift 1).isTop = false := by
            have hdepth : (n.shift 1).depth ≠ 0 := by
              simp only [shift]
              omega
            simp [isTop, hdepth]
          have hstep : ¬((n.shift 1).step c).depth < 0 := by
            rw [step_shift]
            simp only [shift]
            omega
          rw [if_neg (by simp [htop]), if_neg hstep, step_shift]
          exact ih (Int.not_lt.1 hd) h

theorem walk?_of_neutral (hn : 0 ≤ n.depth) (h : ∀ c ∈ s, Neutral c ∧ stop c = false) :
    n.walk? stop s = some n := by
  induction s with
  | nil => rfl
  | cons c s ih =>
      obtain ⟨⟨hc, hstop⟩, hs⟩ := List.forall_mem_cons.1 h
      rw [walk?, if_neg (by simp [hstop]), step_of_neutral hc, if_neg (Int.not_lt.2 hn)]
      exact ih hs

theorem walk?_squeeze (hn : 0 ≤ n.depth) (hstop : ∀ c, isBlank c = true → stop c = false) :
    n.walk? stop (squeeze s) = n.walk? stop s := by
  induction s generalizing n with
  | nil => rfl
  | cons c s ih =>
      cases hc : isBlank c with
      | true =>
          rw [squeeze_cons_of_blank hc, ih hn, walk?, if_neg (by simp [hstop c hc]),
            step_of_neutral (neutral_of_isBlank hc), if_neg (Int.not_lt.2 hn)]
      | false =>
          rw [squeeze_cons_of_not_blank hc, walk?, walk?]
          split
          · rfl
          · split
            · rfl
            · next hd => exact ih (Int.not_lt.1 hd)

/-- Between quotes only the closing quote changes the state. -/
theorem walk?_quoted (hq : n.quoted = true) (hn : 0 ≤ n.depth) (h : '"' ∉ s) :
    n.walk? stop s = some n := by
  induction s with
  | nil => rfl
  | cons c s ih =>
      have hc : c ≠ '"' := fun he => h (he ▸ List.mem_cons_self)
      have htop : n.isTop = false := by simp [isTop, hq]
      have hstep : n.step c = n := by rw [step, if_neg hc, if_pos hq]
      rw [walk?, if_neg (by simp [htop]), hstep, if_neg (Int.not_lt.2 hn)]
      exact ih fun hs => h (List.mem_cons_of_mem c hs)

end Nesting

open Nesting

variable {c o : Char} {s t a b x r p : List Char} {ps parts : List (List Char)} {n m : Nesting}

/-- Nothing is closed that was not opened before, and nothing is left open. -/
def Balanced (s : List Char) : Prop := walk? (fun _ => false) {} s = some {}

/-- Balanced, without commas at the top level. -/
def Piece (s : List Char) : Prop := walk? (· == ',') {} s = some {}

instance : DecidablePred Balanced := fun _ => inferInstanceAs (Decidable (_ = _))

instance : DecidablePred Piece := fun _ => inferInstanceAs (Decidable (_ = _))

theorem Piece.balanced (h : Piece s) : Balanced s := walk?_weaken (fun _ hf => by cases hf) h

theorem Balanced.append (ha : Balanced a) (hb : Balanced b) : Balanced (a ++ b) := by
  rw [Balanced, walk?_append, ha]
  exact hb

theorem Piece.append (ha : Piece a) (hb : Piece b) : Piece (a ++ b) := by
  rw [Piece, walk?_append, ha]
  exact hb

theorem Piece.of_append_left (h : Piece (a ++ b)) (ha : Piece a) : Piece b := by
  rw [Piece, walk?_append, ha] at h
  exact h

theorem Piece.of_append_right (h : Piece (a ++ b)) (hb : Balanced b) : Piece a := by
  rw [Piece, walk?_append] at h
  obtain ⟨m, hm, hmb⟩ := Option.bind_eq_some_iff.1 h
  have htop : m = {} := eq_top_of_run_eq_top (run_of_walk? hb) (run_of_walk? hmb)
  rw [Piece, hm, htop]

theorem Balanced.run_eq (h : Balanced s) : Nesting.run {} s = {} := run_of_walk? h

/-- The quotes of a balanced text come in pairs. -/
theorem Balanced.quotedAfter (h : Balanced s) : quotedAfter false s = false := by
  have hrun := quoted_run (n := {}) (s := s)
  rw [h.run_eq] at hrun
  exact hrun.symm

theorem piece_of_neutral (h : ∀ c ∈ s, Neutral c ∧ c ≠ ',') : Piece s := by
  apply walk?_of_neutral (Int.le_refl 0)
  intro c hc
  exact ⟨(h c hc).1, by simp [(h c hc).2]⟩

theorem not_piece_comma : ¬Piece (',' :: s) := by
  intro h
  cases h

theorem Blanks.piece (h : Blanks s) : Piece s := by
  apply piece_of_neutral
  intro c hc
  refine ⟨neutral_of_isBlank (h c hc), ?_⟩
  rintro rfl
  exact absurd (h ',' hc) (by decide)

theorem piece_squeeze : Piece (squeeze s) ↔ Piece s := by
  have hstop : ∀ c, isBlank c = true → (c == ',') = false := by
    intro c hc
    rw [Bool.eq_false_iff, ne_eq, beq_iff_eq]
    rintro rfl
    cases hc
  rw [Piece, Piece, walk?_squeeze (Int.le_refl 0) hstop]

theorem piece_trim : Piece (trim s) ↔ Piece s := by
  rw [← piece_squeeze, squeeze_trim, piece_squeeze]

theorem piece_trimStart : Piece (trimStart s) ↔ Piece s := by
  rw [← piece_squeeze, squeeze_trimStart, piece_squeeze]

/-- A text whose words are pieces is a piece. -/
theorem piece_of_words (h : ∀ w ∈ words s, Piece w) : Piece s := by
  rw [← piece_squeeze, squeeze_eq_flatten_words]
  generalize words s = ws at h ⊢
  induction ws with
  | nil => rfl
  | cons w ws ih =>
      obtain ⟨hw, hws⟩ := List.forall_mem_cons.1 h
      rw [List.flatten_cons]
      exact hw.append (ih hws)

/-- A bracket around a balanced text is a piece. -/
theorem Balanced.bracket (h : Balanced s) (ho : isOpening o = true) (hc : isClosing c = true) :
    Piece (o :: s ++ [c]) := by
  have hcq : c ≠ '"' := by
    rintro rfl
    cases hc
  have hcomma : o ≠ ',' := by
    rintro rfl
    cases ho
  have hco : isOpening c = false := by
    cases hco : isOpening c with
    | false => rfl
    | true =>
        rw [isClosing_of_isOpening hco] at hc
        cases hc
  have hclose : Nesting.step (shift 1 {}) c = {} := by
    rw [step, if_neg hcq, hco, hc]
    rfl
  have hinside := walk?_shift_one (· == ',') (Int.le_refl 0) h
  rw [Piece, List.cons_append, walk?, if_neg (by simp [hcomma]), step_opening ho,
    if_neg (by decide), walk?_append, hinside, Option.bind_some, walk?, if_neg (by simp [isTop, shift]), hclose,
    if_neg (by decide)]
  rfl

/-- A quotation is a piece. -/
theorem piece_quotation (h : '"' ∉ s) : Piece ('"' :: s ++ ['"']) := by
  have hquoted : walk? (· == ',') { quoted := true } s = some { quoted := true } :=
    walk?_quoted rfl (Int.le_refl 0) h
  have hopen : Nesting.step {} '"' = { quoted := true } := rfl
  rw [Piece, List.cons_append, walk?, if_neg (by simp), hopen, if_neg (by decide), walk?_append,
    hquoted]
  rfl

/-! ## Commas at the top level -/

theorem eq_top_of_isTop (h : n.isTop = true) : n = {} := by
  obtain ⟨depth, quoted⟩ := n
  simp only [isTop, Bool.and_eq_true, beq_iff_eq, Bool.not_eq_true'] at h
  rw [h.1, h.2]

/-- The segments of a text are the pieces between its top-level commas. -/
theorem segments?_eq_some (h : segments? n s = some parts) :
    ∃ p ps, parts = p :: ps ∧ s = p ++ ps.flatMap (',' :: ·) ∧
      n.walk? (· == ',') p = some {} ∧ ∀ q ∈ ps, Piece q := by
  induction s generalizing n parts with
  | nil =>
      rw [segments?, Option.ite_none_right_eq_some] at h
      obtain ⟨htop, hparts⟩ := h
      refine ⟨[], [], (Option.some.inj hparts).symm, rfl, ?_, ?_⟩
      · rw [eq_top_of_isTop htop]
        rfl
      · intro q hq
        cases hq
  | cons c s ih =>
      rw [segments?] at h
      split at h
      · next hc =>
          obtain ⟨qs, hqs, hparts⟩ := Option.map_eq_some_iff.1 h
          obtain ⟨p, ps, hq, hs, hp, hps⟩ := ih hqs
          rw [eq_top_of_isTop hc.2] at hp ⊢
          refine ⟨[], qs, hparts.symm, ?_, rfl, ?_⟩
          · rw [hq, hs, hc.1]
            rfl
          · rw [hq]
            exact List.forall_mem_cons.2 ⟨hp, hps⟩
      · next hc =>
          dsimp only at h
          split at h
          · cases h
          · next hd =>
              obtain ⟨qs, hqs, hparts⟩ := Option.map_eq_some_iff.1 h
              obtain ⟨p, ps, hq, hs, hp, hps⟩ := ih hqs
              refine ⟨c :: p, ps, ?_, ?_, ?_, hps⟩
              · rw [← hparts, hq]
                rfl
              · rw [hs]
                rfl
              · rw [walk?, if_neg (by simpa using hc), if_neg hd]
                exact hp

theorem foldr_consHead : p.foldr consHead (x :: ps) = (p ++ x) :: ps := by
  induction p with
  | nil => rfl
  | cons c p ih =>
      rw [List.foldr_cons, ih]
      rfl

theorem segments?_append (h : n.walk? (· == ',') p = some m) :
    segments? n (p ++ r) = (segments? m r).map (p.foldr consHead) := by
  induction p generalizing n with
  | nil =>
      obtain rfl := Option.some.inj h
      exact Option.map_id'.symm
  | cons c p ih =>
      rw [walk?] at h
      split at h
      · cases h
      · next hc =>
          split at h
          · cases h
          · next hd =>
              rw [List.cons_append, segments?, if_neg (by simpa using hc)]
              dsimp only
              rw [if_neg hd, ih h, Option.map_map]
              rfl

/-- Cutting undoes joining with commas. -/
theorem segments?_flatMap (hp : Piece p) (hps : ∀ q ∈ ps, Piece q) :
    segments? {} (p ++ ps.flatMap (',' :: ·)) = some (p :: ps) := by
  induction ps generalizing p with
  | nil =>
      rw [segments?_append hp, List.flatMap_nil, segments?, if_pos (by rfl), Option.map_some,
        foldr_consHead, List.append_nil]
  | cons q ps ih =>
      obtain ⟨hq, hps⟩ := List.forall_mem_cons.1 hps
      rw [segments?_append hp, List.flatMap_cons, List.cons_append, segments?,
        if_pos ⟨rfl, rfl⟩, ih hq hps, Option.map_some, Option.map_some, foldr_consHead,
        List.append_nil]

theorem balanced_of_pieces (hp : Piece p) (hps : ∀ q ∈ ps, Piece q) :
    Balanced (p ++ ps.flatMap (',' :: ·)) := by
  apply hp.balanced.append
  induction ps with
  | nil => rfl
  | cons q ps ih =>
      obtain ⟨hq, hps⟩ := List.forall_mem_cons.1 hps
      have hcomma : Balanced [','] := rfl
      exact (hcomma.append hq.balanced).append (ih hps)

/-- Behind a text that ends at the top level, a comma separates. -/
theorem segments?_comma (hs : n.run s = {}) (hr : segments? {} r = some parts) :
    segments? n (s ++ ',' :: r) = (segments? n s).map (· ++ parts) := by
  induction s generalizing n with
  | nil =>
      obtain rfl : n = {} := hs
      have hnil : segments? {} [] = some [[]] := rfl
      rw [List.nil_append, hnil, segments?, if_pos ⟨rfl, rfl⟩, hr]
      rfl
  | cons c s ih =>
      rw [List.cons_append, segments?, segments?]
      split
      · next hc =>
          rw [run_cons, hc.1, step_comma] at hs
          rw [ih hs, Option.map_map, Option.map_map]
          rfl
      · dsimp only
        split
        · rfl
        · rw [ih hs, Option.map_map, Option.map_map]
          cases hparts : segments? (n.step c) s with
          | none => rfl
          | some qs =>
              obtain ⟨p, ps, rfl, -⟩ := segments?_eq_some hparts
              rfl

/-- A piece behind a comma is the last segment, if there are any. -/
theorem segments?_concat (hp : Piece p) (h : segments? {} (s ++ ',' :: p) = some parts) :
    ∃ front, segments? {} s = some front ∧ parts = front ++ [p] := by
  obtain ⟨q, qs, -, hs, hq, hqs⟩ := segments?_eq_some h
  have hbalanced : Nesting.run {} (s ++ ',' :: p) = {} := by
    rw [hs]
    exact (balanced_of_pieces hq hqs).run_eq
  have hcomma : Nesting.run {} (',' :: p) = {} := by
    rw [run_cons]
    exact hp.balanced.run_eq
  rw [run_append] at hbalanced
  -- The comma and the piece lead from the top level back to it, so what is in front ends there.
  have htop := eq_top_of_run_eq_top hcomma hbalanced
  have hlast : segments? {} p = some [p] := by
    have hsingle := segments?_flatMap hp (List.forall_mem_nil Piece)
    rwa [List.flatMap_nil, List.append_nil] at hsingle
  rw [segments?_comma htop hlast] at h
  obtain ⟨front, hfront, rfl⟩ := Option.map_eq_some_iff.1 h
  exact ⟨front, hfront, rfl⟩

/-- The parts of a text are the trimmed pieces between its top-level commas. -/
theorem splitTop?_eq_some (h : splitTop? s = some parts) :
    (parts = [] ∧ Blanks s) ∨
      ∃ p ps, parts = (p :: ps).map trim ∧ s = p ++ ps.flatMap (',' :: ·) ∧
        ∀ q ∈ p :: ps, Piece q := by
  rw [splitTop?] at h
  split at h
  · next hs => exact .inl ⟨(Option.some.inj h).symm, allBlank_iff.1 hs⟩
  · obtain ⟨qs, hqs, hparts⟩ := Option.map_eq_some_iff.1 h
    obtain ⟨p, ps, rfl, hs, hp, hps⟩ := segments?_eq_some hqs
    exact .inr ⟨p, ps, hparts.symm, hs, List.forall_mem_cons.2 ⟨hp, hps⟩⟩

theorem piece_of_mem_splitTop? (h : splitTop? s = some parts) (hp : p ∈ parts) : Piece p := by
  rcases splitTop?_eq_some h with ⟨rfl, -⟩ | ⟨q, qs, rfl, -, hqs⟩
  · cases hp
  · obtain ⟨q', hq', rfl⟩ := List.mem_map.1 hp
    exact piece_trim.2 (hqs q' hq')

theorem nil_or_solid_of_mem_splitTop? (h : splitTop? s = some parts) (hp : p ∈ parts) :
    p = [] ∨ Solid p := by
  rcases splitTop?_eq_some h with ⟨rfl, -⟩ | ⟨q, qs, rfl, -, -⟩
  · cases hp
  · obtain ⟨q', -, rfl⟩ := List.mem_map.1 hp
    exact trim_eq_nil_or_solid q'

/-- A text that is cut into parts is balanced. -/
theorem balanced_of_splitTop? (h : splitTop? s = some parts) : Balanced s := by
  rcases splitTop?_eq_some h with ⟨-, hs⟩ | ⟨q, qs, -, rfl, hqs⟩
  · exact hs.piece.balanced
  · obtain ⟨hq, hqs⟩ := List.forall_mem_cons.1 hqs
    exact balanced_of_pieces hq hqs

theorem intercalate_comma :
    [',', ' '].intercalate (p :: ps) = p ++ (ps.map (' ' :: ·)).flatMap (',' :: ·) := by
  induction ps generalizing p with
  | nil => simp
  | cons q ps ih =>
      rw [List.intercalate_cons_cons, ih]
      simp

theorem intercalate_comma_append (hps : ps ≠ []) (qs : List (List Char)) :
    [',', ' '].intercalate (ps ++ qs) =
      [',', ' '].intercalate ps ++ qs.flatMap ([',', ' '] ++ ·) := by
  obtain ⟨p, ps, rfl⟩ := List.exists_cons_of_ne_nil hps
  rw [List.cons_append, intercalate_comma, intercalate_comma, List.map_append,
    List.flatMap_append, List.append_assoc, List.flatMap_map, List.flatMap_map]
  rfl

/-- Pieces with commas between them are read back, without the blanks around them. One piece alone
must not be blank. -/
theorem splitTop?_of_pieces (hne : ps = [] → allBlank p = false) (h : ∀ q ∈ p :: ps, Piece q) :
    splitTop? (p ++ ps.flatMap (',' :: ·)) = some ((p :: ps).map trim) := by
  have hblank : allBlank (p ++ ps.flatMap (',' :: ·)) = false := by
    rw [allBlank, List.all_append, Bool.and_eq_false_iff]
    cases ps with
    | nil => exact .inl (hne rfl)
    | cons q ps => exact .inr rfl
  obtain ⟨hp, hps⟩ := List.forall_mem_cons.1 h
  rw [splitTop?, hblank, if_neg Bool.false_ne_true, segments?_flatMap hp hps, Option.map_some]

/-- Trimmed pieces are read back from a list with commas between them. One piece alone must not be
empty. -/
theorem splitTop?_intercalate_of_trim (hne : ps ≠ [[]]) (h : ∀ p ∈ ps, trim p = p ∧ Piece p) :
    splitTop? ([',', ' '].intercalate ps) = some ps := by
  cases ps with
  | nil => rfl
  | cons p ps =>
      obtain ⟨⟨hp, hpiece⟩, hps⟩ := List.forall_mem_cons.1 h
      have hpieces : ∀ q ∈ p :: ps.map (' ' :: ·), Piece q := by
        refine List.forall_mem_cons.2 ⟨hpiece, fun q hq => ?_⟩
        obtain ⟨q', hq', rfl⟩ := List.mem_map.1 hq
        exact blanks_space.piece.append (hps q' hq').2
      have hblank : ps.map (' ' :: ·) = [] → allBlank p = false := by
        intro hnil
        rw [Bool.eq_false_iff]
        intro hall
        rw [← hp, (allBlank_iff.1 hall).trim_eq, List.map_eq_nil_iff.1 hnil] at hne
        exact hne rfl
      have htrim : ∀ q ∈ ps, (trim ∘ (' ' :: ·)) q = q := by
        intro q hq
        exact (trim_space q).trans (hps q hq).1
      rw [intercalate_comma, splitTop?_of_pieces hblank hpieces, List.map_cons, hp, List.map_map,
        List.map_congr_left htrim, List.map_id']

/-- Solid pieces are read back from a list with commas between them. -/
theorem splitTop?_intercalate (h : ∀ p ∈ ps, Solid p ∧ Piece p) :
    splitTop? ([',', ' '].intercalate ps) = some ps := by
  apply splitTop?_intercalate_of_trim
  · rintro rfl
    exact (h [] List.mem_cons_self).1.ne_nil rfl
  · exact fun p hp => ⟨(h p hp).1.trim_eq, (h p hp).2⟩

/-- Blanks in front of a list do not count. -/
theorem splitTop?_blanks_append (ha : Blanks a) : splitTop? (a ++ s) = splitTop? s := by
  have hblank : allBlank (a ++ s) = allBlank s := by
    have hall : a.all isBlank = true := allBlank_iff.2 ha
    rw [allBlank, List.all_append, hall, Bool.true_and, allBlank]
  rw [splitTop?, splitTop?, hblank]
  split
  · rfl
  · rw [segments?_append ha.piece, Option.map_map]
    cases hs : segments? {} s with
    | none => rfl
    | some qs =>
        obtain ⟨p, ps, rfl, -, -, -⟩ := segments?_eq_some hs
        simp only [Option.map_some, Function.comp_apply, foldr_consHead, List.map_cons,
          trim_blanks_append ha]

theorem balanced_intercalate (h : ∀ p ∈ ps, Piece p) : Balanced ([',', ' '].intercalate ps) := by
  cases ps with
  | nil => rfl
  | cons p ps =>
      obtain ⟨hpiece, hps⟩ := List.forall_mem_cons.1 h
      rw [intercalate_comma]
      apply balanced_of_pieces hpiece
      intro q hq
      obtain ⟨q', hq', rfl⟩ := List.mem_map.1 hq
      exact blanks_space.piece.append (hps q' hq')

/-! ## Brackets and targets -/

/-- What stands in a bracket at the start is read without regard to what follows it. -/
theorem takeBracketed?_append (h : takeBracketed? n s = some (a, b)) :
    takeBracketed? n (a ++ t) = some (a, t) := by
  induction s generalizing n a with
  | nil => cases h
  | cons c s ih =>
      rw [takeBracketed?] at h
      dsimp only at h
      split at h
      · next hc =>
          obtain ⟨rfl, rfl⟩ := Prod.mk.inj (Option.some.inj h)
          rw [List.singleton_append, takeBracketed?]
          exact if_pos hc
      · next hc =>
          obtain ⟨front, rfl, hfront⟩ := map_cons_eq_some_iff.1 h
          rw [List.cons_append, takeBracketed?]
          dsimp only
          rw [if_neg hc, ih hfront]
          rfl

theorem takeBracketed?_balanced (hx : n.walk? (fun _ => false) x = some m) (hn : 0 ≤ n.depth)
    (hm : m = {}) :
    takeBracketed? (n.shift 1) (x ++ ')' :: r) = some (x ++ [')'], r) := by
  subst hm
  induction x generalizing n with
  | nil =>
      obtain rfl := Option.some.inj hx
      rfl
  | cons c x ih =>
      rw [walk?, if_neg (fun hf => Bool.false_ne_true hf.1)] at hx
      split at hx
      · cases hx
      · next hd =>
          have hopen : ¬((n.shift 1).step c).depth = 0 := by
            rw [step_shift]
            simp only [shift]
            omega
          rw [List.cons_append, takeBracketed?]
          dsimp only
          rw [if_neg (fun hc => hopen hc.2.2), step_shift, ih (Int.not_lt.1 hd) hx]
          rfl

/-- A balanced text in parentheses is read up to the closing one. -/
theorem takeBracketed?_parens (hx : Balanced x) :
    takeBracketed? {} ('(' :: x ++ ')' :: r) = some ('(' :: x ++ [')'], r) := by
  rw [List.cons_append, takeBracketed?]
  dsimp only
  rw [if_neg (fun hc => Bool.false_ne_true hc.1), step_opening rfl,
    takeBracketed?_balanced hx (Int.le_refl 0) rfl]
  rfl

/-- What is read up to a closing bracket ends with one. -/
theorem exists_of_takeBracketed? (h : takeBracketed? n s = some (a, b)) :
    ∃ x c, a = x ++ [c] ∧ isClosing c = true := by
  induction s generalizing n a with
  | nil => cases h
  | cons c s ih =>
      rw [takeBracketed?] at h
      dsimp only at h
      split at h
      · next hc =>
          obtain ⟨rfl, rfl⟩ := Prod.mk.inj (Option.some.inj h)
          exact ⟨[], c, rfl, hc.1⟩
      · obtain ⟨front, rfl, hfront⟩ := map_cons_eq_some_iff.1 h
        obtain ⟨x, d, rfl, hd⟩ := ih hfront
        exact ⟨c :: x, d, rfl, hd⟩

/-- What is read from an opening bracket stands in brackets. -/
theorem takeBracketed?_cons_eq_some (ho : isOpening o = true)
    (h : takeBracketed? n (o :: s) = some (a, b)) :
    ∃ x c, a = o :: x ++ [c] ∧ isClosing c = true ∧ s = x ++ c :: b := by
  obtain ⟨y, c, rfl, hc⟩ := exists_of_takeBracketed? h
  have hs := append_of_takeBracketed? h
  cases y with
  | nil =>
      rw [List.nil_append, List.singleton_append, List.cons.injEq] at hs
      rw [← hs.1, isClosing_of_isOpening ho] at hc
      cases hc
  | cons d x =>
      simp only [List.cons_append, List.append_assoc, List.cons.injEq] at hs
      obtain ⟨rfl, rfl⟩ := hs
      exact ⟨x, c, rfl, hc, rfl⟩

theorem splitAtTop?_eq_some_iff :
    splitAtTop? c n s = some (a, b) ↔
      s = a ++ c :: b ∧ splitAtTop? c n a = none ∧ (n.run a).isTop = true := by
  induction s generalizing n a with
  | nil => simp [splitAtTop?]
  | cons d s ih =>
      rw [splitAtTop?]
      by_cases hd : d = c ∧ n.isTop = true
      · rw [if_pos hd]
        constructor
        · intro h
          obtain ⟨rfl, rfl⟩ := Prod.mk.inj (Option.some.inj h)
          exact ⟨by rw [hd.1]; rfl, rfl, hd.2⟩
        · rintro ⟨hs, hnone, -⟩
          cases a with
          | nil =>
              rw [List.nil_append, List.cons.injEq] at hs
              rw [hs.2]
          | cons e a =>
              rw [List.cons_append, List.cons.injEq] at hs
              rw [splitAtTop?, ← hs.1, if_pos hd] at hnone
              cases hnone
      · rw [if_neg hd, map_cons_eq_some_iff]
        constructor
        · rintro ⟨front, rfl, hfront⟩
          obtain ⟨rfl, hnone, htop⟩ := ih.1 hfront
          rw [splitAtTop?, if_neg hd, hnone]
          exact ⟨rfl, rfl, htop⟩
        · rintro ⟨hs, hnone, htop⟩
          cases a with
          | nil => exact absurd ⟨(List.cons.inj hs).1, htop⟩ hd
          | cons e a =>
              obtain ⟨rfl, hrest⟩ := List.cons.inj hs
              rw [splitAtTop?, if_neg hd, Option.map_eq_none_iff] at hnone
              exact ⟨a, rfl, ih.2 ⟨hrest, hnone, htop⟩⟩

theorem splitAtTop?_squeeze_eq_none_iff (hc : isBlank c = false) :
    splitAtTop? c n (squeeze s) = none ↔ splitAtTop? c n s = none := by
  induction s generalizing n with
  | nil => exact Iff.rfl
  | cons d s ih =>
      cases hd : isBlank d with
      | true =>
          have hne : d ≠ c := by
            rintro rfl
            rw [hc] at hd
            cases hd
          rw [squeeze_cons_of_blank hd, ih, splitAtTop?, if_neg (fun h => hne h.1),
            step_of_neutral (neutral_of_isBlank hd), Option.map_eq_none_iff]
      | false =>
          rw [squeeze_cons_of_not_blank hd, splitAtTop?, splitAtTop?]
          split
          · exact iff_of_false (Option.some_ne_none _) (Option.some_ne_none _)
          · rw [Option.map_eq_none_iff, Option.map_eq_none_iff, ih]

theorem splitAtTop?_eq_none_of_not_mem (h : c ∉ s) : splitAtTop? c n s = none := by
  cases hs : splitAtTop? c n s with
  | none => rfl
  | some p =>
      obtain ⟨rfl, -, -⟩ := splitAtTop?_eq_some_iff.1 hs
      exact absurd (by simp) h

end SsaIr.Text
