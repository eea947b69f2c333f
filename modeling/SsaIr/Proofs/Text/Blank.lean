import Mathlib.Data.List.Basic
import SsaIr.Text.Blank

/-!
# Trimming, tokens and words

What trimming leaves is empty or solid: it neither starts nor ends with a blank. Tokens and words
written one after another with blanks between are read back one by one.
-/

namespace SsaIr.Text

/-- The characters that are not blank. -/
def squeeze (s : List Char) : List Char := s.filter (!isBlank ·)

/-- Only blanks. -/
def Blanks (s : List Char) : Prop := ∀ c ∈ s, isBlank c = true

/-- No blanks. -/
def Unbroken (s : List Char) : Prop := ∀ c ∈ s, isBlank c = false

instance : DecidablePred Blanks := fun s => List.decidableBAll _ s

instance : DecidablePred Unbroken := fun s => List.decidableBAll _ s

/-- There are characters, and those at the ends are not blank. -/
structure Solid (s : List Char) : Prop where
  head : s.head?.any (!isBlank ·) = true
  last : s.getLast?.any (!isBlank ·) = true

variable {a b s t w : List Char} {c : Char}

theorem squeeze_append : squeeze (a ++ b) = squeeze a ++ squeeze b := List.filter_append a b

theorem squeeze_cons_of_not_blank (h : isBlank c = false) : squeeze (c :: s) = c :: squeeze s :=
  List.filter_cons_of_pos (by rw [h]; rfl)

theorem squeeze_cons_of_blank (h : isBlank c = true) : squeeze (c :: s) = squeeze s :=
  List.filter_cons_of_neg (by simp [h])

theorem Blanks.squeeze_eq (h : Blanks s) : squeeze s = [] := by
  apply List.filter_eq_nil_iff.2
  intro c hc
  rw [h c hc]
  exact Bool.false_ne_true

theorem Unbroken.squeeze_eq (h : Unbroken s) : squeeze s = s := by
  apply List.filter_eq_self.2
  intro c hc
  rw [h c hc]
  rfl

theorem blanks_takeWhile (s : List Char) : Blanks (s.takeWhile isBlank) := fun c hc =>
  List.all_eq_true.1 List.all_takeWhile c hc

theorem blanks_singleton (h : isBlank c = true) : Blanks [c] := by
  intro d hd
  rwa [List.mem_singleton.1 hd]

theorem blanks_space : Blanks [' '] := blanks_singleton rfl

theorem Blanks.append (ha : Blanks a) (hb : Blanks b) : Blanks (a ++ b) := by
  intro c hc
  rcases List.mem_append.1 hc with hc | hc
  · exact ha c hc
  · exact hb c hc

namespace Solid

theorem ne_nil (h : Solid s) : s ≠ [] := by
  rintro rfl
  exact Bool.false_ne_true h.head

theorem of_unbroken (h : Unbroken s) (hs : s ≠ []) : Solid s := by
  constructor
  · rw [List.head?_eq_some_head hs, Option.any_some, h _ (List.head_mem hs)]
    rfl
  · rw [List.getLast?_eq_some_getLast hs, Option.any_some, h _ (List.getLast_mem hs)]
    rfl

/-- Only the ends count. -/
theorem append (ha : a.head?.any (!isBlank ·) = true) (hb : b.getLast?.any (!isBlank ·) = true) :
    Solid (a ++ b) := by
  constructor
  · cases a with
    | nil => exact absurd ha Bool.false_ne_true
    | cons c a => exact ha
  · rw [List.getLast?_append]
    cases h : b.getLast? with
    | none =>
        rw [h] at hb
        exact absurd hb Bool.false_ne_true
    | some c =>
        rw [h] at hb
        exact hb

/-- Solid texts with a blank between them. -/
theorem append_space (ha : Solid a) (hb : Solid b) : Solid (a ++ ' ' :: b) := by
  apply append ha.head
  rw [List.getLast?_cons, List.getLast?_eq_some_getLast hb.ne_nil, Option.any_some]
  have hlast := hb.last
  rwa [List.getLast?_eq_some_getLast hb.ne_nil] at hlast

theorem head_all (h : Solid s) : s.head?.all (!isBlank ·) = true := by
  have hhead := h.head
  rw [List.head?_eq_some_head h.ne_nil] at hhead ⊢
  exact hhead

end Solid

theorem trimStart_append_of_blanks (h : Blanks a) : trimStart (a ++ s) = trimStart s :=
  List.dropWhile_append_of_pos h

theorem Blanks.trimStart_eq (h : Blanks s) : trimStart s = [] := by
  have happend := trimStart_append_of_blanks (s := []) h
  rwa [List.append_nil] at happend

theorem trimStart_of_head (h : s.head?.all (!isBlank ·) = true) : trimStart s = s := by
  cases s with
  | nil => rfl
  | cons c s =>
      apply List.dropWhile_cons_of_neg
      simpa using h

theorem head?_trimStart (s : List Char) : (trimStart s).head?.all (!isBlank ·) = true := by
  induction s with
  | nil => rfl
  | cons c s ih =>
      rw [trimStart, List.dropWhile_cons]
      split
      · exact ih
      · next hc => simpa using hc

theorem exists_trimStart (s : List Char) : ∃ a, Blanks a ∧ s = a ++ trimStart s :=
  ⟨s.takeWhile isBlank, blanks_takeWhile s, List.takeWhile_append_dropWhile.symm⟩

theorem reverse_trimEnd (s : List Char) : (trimEnd s).reverse = trimStart s.reverse :=
  List.reverse_reverse _

theorem Blanks.reverse (h : Blanks s) : Blanks s.reverse := fun c hc =>
  h c (List.mem_reverse.1 hc)

theorem trimEnd_append_of_blanks (h : Blanks b) : trimEnd (s ++ b) = trimEnd s := by
  apply List.reverse_injective
  rw [reverse_trimEnd, reverse_trimEnd, List.reverse_append,
    trimStart_append_of_blanks h.reverse]

theorem trimEnd_of_last (h : s.getLast?.all (!isBlank ·) = true) : trimEnd s = s := by
  apply List.reverse_injective
  rw [reverse_trimEnd]
  apply trimStart_of_head
  rwa [List.head?_reverse]

theorem getLast?_trimEnd (s : List Char) : (trimEnd s).getLast?.all (!isBlank ·) = true := by
  rw [← List.head?_reverse, reverse_trimEnd]
  exact head?_trimStart _

theorem exists_trimEnd (s : List Char) : ∃ b, Blanks b ∧ s = trimEnd s ++ b := by
  obtain ⟨b, hb, hs⟩ := exists_trimStart s.reverse
  refine ⟨b.reverse, hb.reverse, ?_⟩
  apply List.reverse_injective
  rw [List.reverse_append, List.reverse_reverse, reverse_trimEnd]
  exact hs

theorem exists_trim (s : List Char) : ∃ a b, Blanks a ∧ Blanks b ∧ s = a ++ trim s ++ b := by
  obtain ⟨a, ha, hs⟩ := exists_trimStart s
  obtain ⟨b, hb, ht⟩ := exists_trimEnd (trimStart s)
  refine ⟨a, b, ha, hb, ?_⟩
  rw [List.append_assoc, trim, ← ht]
  exact hs

theorem trim_blanks_append (ha : Blanks a) : trim (a ++ s) = trim s := by
  rw [trim, trimStart_append_of_blanks ha, trim]

theorem trim_space (s : List Char) : trim (' ' :: s) = trim s := trim_blanks_append blanks_space

theorem trim_append_blanks (hb : Blanks b) : trim (s ++ b) = trim s := by
  rw [trim]
  by_cases hs : trimStart s = []
  · have hsb : Blanks s := by
      obtain ⟨r, hr, he⟩ := exists_trimStart s
      rw [hs, List.append_nil] at he
      rwa [he]
    rw [trimStart_append_of_blanks hsb, hb.trimStart_eq, trim, hs]
  · have hsplit : trimStart (s ++ b) = trimStart s ++ b := by
      obtain ⟨r, hr, he⟩ := exists_trimStart s
      conv_lhs => rw [he, List.append_assoc, trimStart_append_of_blanks hr]
      apply trimStart_of_head
      have hhead := head?_trimStart s
      cases ht : trimStart s with
      | nil => exact absurd ht hs
      | cons c t =>
          rw [ht] at hhead
          exact hhead
    rw [hsplit, trimEnd_append_of_blanks hb, trim]

theorem Blanks.trim_eq (h : Blanks s) : trim s = [] := by
  rw [trim, h.trimStart_eq]
  rfl

theorem Solid.trimStart_eq (h : Solid s) : trimStart s = s := trimStart_of_head h.head_all

theorem Solid.trimEnd_eq (h : Solid s) : trimEnd s = s := by
  apply trimEnd_of_last
  cases hs : s.getLast? with
  | none => rfl
  | some c =>
      have hlast := h.last
      rwa [hs] at hlast

theorem Solid.trim_eq (h : Solid s) : trim s = s := by rw [trim, h.trimStart_eq, h.trimEnd_eq]

theorem trim_eq_nil_or_solid (s : List Char) : trim s = [] ∨ Solid (trim s) := by
  by_cases hs : trim s = []
  · exact .inl hs
  · right
    constructor
    · obtain ⟨b, hb, he⟩ := exists_trimEnd (trimStart s)
      have hhead := head?_trimStart s
      change (trimEnd (trimStart s)).head?.any _ = true
      rw [trim] at hs
      cases ht : trimEnd (trimStart s) with
      | nil => exact absurd ht hs
      | cons c t =>
          rw [he, ht] at hhead
          exact hhead
    · have hlast := getLast?_trimEnd (trimStart s)
      change (trimEnd (trimStart s)).getLast?.any _ = true
      rw [trim] at hs
      rw [List.getLast?_eq_some_getLast hs] at hlast ⊢
      exact hlast

theorem solid_trim (h : trim s ≠ []) : Solid (trim s) := (trim_eq_nil_or_solid s).resolve_left h

theorem trim_trim (s : List Char) : trim (trim s) = trim s := by
  rcases trim_eq_nil_or_solid s with h | h
  · rw [h]
    rfl
  · exact h.trim_eq

theorem trimStart_trim (s : List Char) : trimStart (trim s) = trim s := by
  rcases trim_eq_nil_or_solid s with h | h
  · rw [h]
    rfl
  · exact h.trimStart_eq

theorem squeeze_trim (s : List Char) : squeeze (trim s) = squeeze s := by
  obtain ⟨a, b, ha, hb, hs⟩ := exists_trim s
  conv_rhs => rw [hs, squeeze_append, squeeze_append, ha.squeeze_eq, hb.squeeze_eq,
    List.append_nil, List.nil_append]

theorem squeeze_trimStart (s : List Char) : squeeze (trimStart s) = squeeze s := by
  obtain ⟨a, ha, hs⟩ := exists_trimStart s
  conv_rhs => rw [hs, squeeze_append, ha.squeeze_eq, List.nil_append]

theorem trim_subset (s : List Char) : trim s ⊆ s := by
  obtain ⟨a, b, -, -, hs⟩ := exists_trim s
  intro c hc
  rw [hs]
  exact List.mem_append_left b (List.mem_append_right a hc)

theorem trimStart_subset (s : List Char) : trimStart s ⊆ s :=
  (List.dropWhile_suffix _).subset

theorem allBlank_iff : allBlank s = true ↔ Blanks s := List.all_eq_true

theorem allBlank_of_trim_eq_nil (h : trim s = []) : allBlank s = true := by
  obtain ⟨a, b, ha, hb, hs⟩ := exists_trim s
  rw [h, List.append_nil] at hs
  rw [allBlank_iff, hs]
  exact ha.append hb

theorem Solid.not_allBlank (h : Solid s) : allBlank s = false := by
  rw [Bool.eq_false_iff]
  intro hs
  have htrim := (allBlank_iff.1 hs).trim_eq
  rw [h.trim_eq] at htrim
  exact h.ne_nil htrim

/-- The end of a solid text is solid if it starts with no blank. -/
theorem Solid.of_suffix (h : Solid s) (hs : s = a ++ t) (ht : t ≠ [])
    (hhead : t.head?.all (!isBlank ·) = true) : Solid t := by
  constructor
  · rw [List.head?_eq_some_head ht] at hhead ⊢
    exact hhead
  · have hlast := h.last
    rw [hs, List.getLast?_append, List.getLast?_eq_some_getLast ht] at hlast
    rw [List.getLast?_eq_some_getLast ht]
    exact hlast

/-! ## Tokens -/

/-- A text ends here, or goes on with a blank. -/
def Breaks (s : List Char) : Prop := s.head?.all isBlank = true

theorem takeWhile_append_of_breaks (hw : Unbroken w) (hs : Breaks s) :
    (w ++ s).takeWhile (!isBlank ·) = w := by
  rw [List.takeWhile_append_of_pos fun c hc => by rw [hw c hc]; rfl]
  cases s with
  | nil => exact List.append_nil w
  | cons c s =>
      have hc : isBlank c = true := hs
      rw [List.takeWhile_cons_of_neg (by simp [hc]), List.append_nil]

theorem dropWhile_append_of_breaks (hw : Unbroken w) (hs : Breaks s) :
    (w ++ s).dropWhile (!isBlank ·) = s := by
  rw [List.dropWhile_append_of_pos fun c hc => by rw [hw c hc]; rfl]
  cases s with
  | nil => rfl
  | cons c s =>
      have hc : isBlank c = true := hs
      rw [List.dropWhile_cons_of_neg (by simp [hc])]

/-- A token in front of a blank is read as it is. -/
theorem nextToken_append (hw : Unbroken w) (hne : w ≠ []) (hs : Breaks s) :
    nextToken (w ++ s) = (w, trimStart s) := by
  have hstart : trimStart (w ++ s) = w ++ s := by
    apply trimStart_of_head
    rw [List.head?_append_of_ne_nil w hne, List.head?_eq_some_head hne, Option.all_some,
      hw _ (List.head_mem hne)]
    rfl
  rw [nextToken, hstart, takeWhile_append_of_breaks hw hs, dropWhile_append_of_breaks hw hs]

theorem trimStart_trimStart (s : List Char) : trimStart (trimStart s) = trimStart s :=
  trimStart_of_head (head?_trimStart s)

theorem nextToken_trimStart (s : List Char) : nextToken (trimStart s) = nextToken s := by
  rw [nextToken, trimStart_trimStart]
  rfl

/-- The first token of a text that breaks does not depend on what follows the text. -/
theorem nextToken_append_of_broken (hs : Solid s) (h : ¬Unbroken s) :
    (nextToken (s ++ t)).1 = s.takeWhile (!isBlank ·) := by
  have hw : Unbroken (s.takeWhile (!isBlank ·)) := by
    intro c hc
    simpa using List.all_eq_true.1 List.all_takeWhile c hc
  have hne : s.takeWhile (!isBlank ·) ≠ [] := by
    intro hnil
    have hhead := hs.head
    cases s with
    | nil => cases hhead
    | cons c s =>
        rw [List.takeWhile_cons_of_pos (p := (!isBlank ·)) hhead] at hnil
        cases hnil
  have hsplit := List.takeWhile_append_dropWhile (p := (!isBlank ·)) (l := s)
  have hbreaks : Breaks (s.dropWhile (!isBlank ·) ++ t) := by
    cases hd : s.dropWhile (!isBlank ·) with
    | nil =>
        rw [hd, List.append_nil] at hsplit
        rw [hsplit] at hw
        exact absurd hw h
    | cons c r =>
        have hnot := List.head?_dropWhile_not (!isBlank ·) s
        rw [hd] at hnot
        have hc : isBlank c = true := by simpa using hnot
        exact hc
  conv_lhs => rw [← hsplit, List.append_assoc, nextToken_append hw hne hbreaks]

theorem nextToken_self (hw : Unbroken w) (hne : w ≠ []) : nextToken w = (w, []) := by
  have h := nextToken_append hw hne (s := []) rfl
  rwa [List.append_nil] at h

theorem nextToken_space (hw : Unbroken w) (hne : w ≠ []) (hs : s.head?.all (!isBlank ·) = true) :
    nextToken (w ++ ' ' :: s) = (w, s) := by
  rw [nextToken_append hw hne (s := ' ' :: s) rfl, ← List.singleton_append,
    trimStart_append_of_blanks blanks_space, trimStart_of_head hs]

/-- A text that starts with a word and a blank has that word as its first token. -/
theorem after?_of_breaks {v : List Char} (hw : Unbroken w) (hne : w ≠ []) (hs : Breaks s)
    (hv : Unbroken v) (hvne : v ≠ []) (h : v ≠ w) : after? (v ++ [' ']) (w ++ s) = none := by
  cases ha : after? (v ++ [' ']) (w ++ s) with
  | none => rfl
  | some rest =>
      have hsplit := after?_eq_some_iff.1 ha
      rw [List.append_assoc, List.singleton_append] at hsplit
      have hbreaks : Breaks (' ' :: rest) := rfl
      have hfirst := congrArg (fun t => (nextToken t).1) hsplit
      rw [nextToken_append hw hne hs, nextToken_append hv hvne hbreaks] at hfirst
      exact absurd hfirst.symm h

theorem unbroken_nextToken (s : List Char) : Unbroken (nextToken s).1 := by
  intro c hc
  simpa using List.all_eq_true.1 List.all_takeWhile c hc

/-- A text is its first token and what follows, with blanks between. -/
theorem exists_nextToken (s : List Char) : ∃ a g, Blanks a ∧ Blanks g ∧
    s = a ++ (nextToken s).1 ++ g ++ (nextToken s).2 := by
  obtain ⟨a, ha, hs⟩ := exists_trimStart s
  obtain ⟨g, hg, hr⟩ := exists_trimStart ((trimStart s).dropWhile (!isBlank ·))
  refine ⟨a, g, ha, hg, ?_⟩
  conv_lhs => rw [hs, ← List.takeWhile_append_dropWhile (p := (!isBlank ·)) (l := trimStart s), hr]
  simp only [nextToken, List.append_assoc]

theorem head?_nextToken (s : List Char) : (nextToken s).2.head?.all (!isBlank ·) = true :=
  head?_trimStart _

theorem squeeze_nextToken (s : List Char) :
    squeeze s = (nextToken s).1 ++ squeeze (nextToken s).2 := by
  obtain ⟨a, g, ha, hg, hs⟩ := exists_nextToken s
  conv_lhs => rw [hs]
  rw [squeeze_append, squeeze_append, squeeze_append, ha.squeeze_eq, hg.squeeze_eq,
    (unbroken_nextToken s).squeeze_eq, List.append_nil, List.nil_append]

/-- What follows a token of a solid text is empty or solid. -/
theorem Solid.nextToken (h : Solid s) : (nextToken s).2 = [] ∨ Solid (nextToken s).2 := by
  by_cases hr : (Text.nextToken s).2 = []
  · exact .inl hr
  · obtain ⟨a, g, -, -, hs⟩ := exists_nextToken s
    exact .inr (h.of_suffix hs hr (head?_nextToken s))

/-! ## Words -/

theorem words_cons_of_blank (h : isBlank c = true) : words (c :: s) = words s := by
  rw [words, runs, if_pos h]
  rfl

theorem words_append_of_blanks (h : Blanks a) : words (a ++ s) = words s := by
  induction a with
  | nil => rfl
  | cons c a ih =>
      rw [List.cons_append, words_cons_of_blank (h c List.mem_cons_self)]
      exact ih fun d hd => h d (List.mem_cons_of_mem c hd)

/-- A word in front of a blank is the first word. -/
theorem words_append (hw : Unbroken w) (hne : w ≠ []) (hs : Breaks s) :
    words (w ++ s) = w :: words s := by
  induction w with
  | nil => exact absurd rfl hne
  | cons c w ih =>
      have hc : isBlank c = false := hw c List.mem_cons_self
      have hw' : Unbroken w := fun d hd => hw d (List.mem_cons_of_mem c hd)
      rw [List.cons_append, words, runs, hc, if_neg Bool.false_ne_true]
      cases w with
      | nil =>
          have hhead : s.head?.all isBlank = true := hs
          rw [List.nil_append, if_pos hhead]
          rfl
      | cons d w =>
          have hd : isBlank d = false := hw' d List.mem_cons_self
          have hrest := ih hw' (List.cons_ne_nil d w)
          rw [words] at hrest
          rw [List.cons_append, List.head?_cons, Option.all_some, hd,
            if_neg Bool.false_ne_true, ← List.cons_append, hrest]
          rfl

/-- Words with blanks in front of them are read one by one. -/
theorem words_flatMap {ws : List (List Char)} (h : ∀ w ∈ ws, Unbroken w ∧ w ≠ []) :
    words (ws.flatMap (' ' :: ·)) = ws := by
  induction ws with
  | nil => rfl
  | cons w ws ih =>
      obtain ⟨⟨hw, hne⟩, hws⟩ := List.forall_mem_cons.1 h
      have hbreaks : Breaks (ws.flatMap (' ' :: ·)) := by
        cases ws with
        | nil => rfl
        | cons v ws => rfl
      rw [List.flatMap_cons, List.cons_append, words_cons_of_blank rfl,
        words_append hw hne hbreaks, ih hws]

theorem Blanks.breaks (h : Blanks a) : Breaks a := by
  cases a with
  | nil => rfl
  | cons c a => exact h c List.mem_cons_self

theorem Blanks.words_eq (h : Blanks a) : words a = [] := by
  rw [← List.append_nil a, words_append_of_blanks h]
  rfl

/-- Words with a blank between them are read one by one. -/
theorem words_intercalate {ws : List (List Char)} (h : ∀ w ∈ ws, Unbroken w ∧ w ≠ [])
    (ha : Blanks a) : words ([' '].intercalate ws ++ a) = ws := by
  induction ws with
  | nil => exact ha.words_eq
  | cons w ws ih =>
      obtain ⟨⟨hw, hne⟩, hws⟩ := List.forall_mem_cons.1 h
      cases ws with
      | nil =>
          rw [List.intercalate_singleton, words_append hw hne ha.breaks, ha.words_eq]
      | cons v ws =>
          have hbreaks : Breaks ([' '] ++ ([' '].intercalate (v :: ws) ++ a)) := rfl
          rw [List.intercalate_cons_cons, List.append_assoc, List.append_assoc,
            words_append hw hne hbreaks, List.singleton_append, words_cons_of_blank rfl, ih hws]

/-- A text is its words with blanks around them. -/
theorem words_induction {P : List Char → List (List Char) → Prop} (hnil : ∀ a, Blanks a → P a [])
    (hcons : ∀ a w s, Blanks a → Unbroken w → w ≠ [] → Breaks s → P s (words s) →
      P (a ++ w ++ s) (w :: words s)) (s : List Char) : P s (words s) := by
  obtain ⟨n, hn⟩ : ∃ n, s.length = n := ⟨_, rfl⟩
  induction n using Nat.strongRecOn generalizing s with
  | ind n ih =>
      obtain ⟨a, ha, hs⟩ := exists_trimStart s
      set t := trimStart s with ht
      have hw : Unbroken (t.takeWhile (!isBlank ·)) := by
        intro c hc
        simpa using List.all_eq_true.1 List.all_takeWhile c hc
      have hsplit := List.takeWhile_append_dropWhile (p := (!isBlank ·)) (l := t)
      by_cases hne : t.takeWhile (!isBlank ·) = []
      · have htnil : t = [] := by
          cases htc : t with
          | nil => rfl
          | cons c r =>
              have hhead := head?_trimStart s
              rw [← ht, htc, List.head?_cons, Option.all_some] at hhead
              rw [htc, List.takeWhile_cons_of_pos (p := (!isBlank ·)) hhead] at hne
              cases hne
        rw [hs, htnil, List.append_nil, ← List.append_nil a, words_append_of_blanks ha,
          List.append_nil]
        exact hnil a ha
      · have hbreaks : Breaks (t.dropWhile (!isBlank ·)) := by
          have hd := List.head?_dropWhile_not (!isBlank ·) t
          unfold Breaks
          cases hhead : (t.dropWhile (!isBlank ·)).head? with
          | none => rfl
          | some c =>
              rw [hhead] at hd
              simpa using hd
        have hlen : (t.dropWhile (!isBlank ·)).length < n := by
          have hpos := List.length_pos_iff.2 hne
          have hsum := congrArg List.length hsplit
          have htotal := congrArg List.length hs
          rw [List.length_append] at hsum htotal
          omega
        have hwords : words s = t.takeWhile (!isBlank ·) :: words (t.dropWhile (!isBlank ·)) := by
          conv_lhs => rw [hs, words_append_of_blanks ha, ← hsplit]
          exact words_append hw hne hbreaks
        have hstep := hcons a _ _ ha hw hne hbreaks (ih _ hlen _ rfl)
        rwa [List.append_assoc, hsplit, ← hs, ← hwords] at hstep

theorem words_append_blanks (ha : Blanks a) (s : List Char) : words (s ++ a) = words s := by
  refine words_induction (P := fun s ws => words (s ++ a) = ws) ?_ ?_ s
  · intro b hb
    exact (hb.append ha).words_eq
  · intro b w s hb hw hne hs ih
    have hbreaks : Breaks (s ++ a) := by
      cases s with
      | nil => exact ha.breaks
      | cons c s => exact hs
    rw [List.append_assoc, List.append_assoc, words_append_of_blanks hb,
      words_append hw hne hbreaks, ih]

theorem words_trim (s : List Char) : words (trim s) = words s := by
  obtain ⟨a, b, ha, hb, hs⟩ := exists_trim s
  conv_rhs => rw [hs, words_append_blanks hb, words_append_of_blanks ha]

theorem words_trimStart (s : List Char) : words (trimStart s) = words s := by
  obtain ⟨a, ha, hs⟩ := exists_trimStart s
  conv_rhs => rw [hs, words_append_of_blanks ha]

theorem squeeze_eq_flatten_words (s : List Char) : squeeze s = (words s).flatten := by
  refine words_induction (P := fun s ws => squeeze s = ws.flatten) ?_ ?_ s
  · intro a ha
    exact ha.squeeze_eq
  · intro a w s ha hw _ _ ih
    rw [squeeze_append, squeeze_append, ha.squeeze_eq, hw.squeeze_eq, ih]
    rfl

theorem of_mem_words (h : w ∈ words s) : Unbroken w ∧ w ≠ [] ∧ w ⊆ s := by
  refine words_induction
    (P := fun s ws => ∀ w ∈ ws, Unbroken w ∧ w ≠ [] ∧ w ⊆ s) ?_ ?_ s w h
  · intro a _ w hw
    cases hw
  · intro a v s _ hv hne _ ih w hw
    rcases List.mem_cons.1 hw with rfl | hw
    · refine ⟨hv, hne, fun c hc => ?_⟩
      simp [hc]
    · obtain ⟨hu, hn, hsub⟩ := ih w hw
      refine ⟨hu, hn, fun c hc => ?_⟩
      exact List.mem_append_right _ (hsub hc)

theorem squeeze_flatMap_space (s : List Char) :
    squeeze ((words s).flatMap (' ' :: ·)) = squeeze s := by
  rw [squeeze_eq_flatten_words, squeeze_eq_flatten_words s,
    words_flatMap fun w hw => ⟨(of_mem_words hw).1, (of_mem_words hw).2.1⟩]

/-- Solid texts go on with words behind blanks. -/
theorem Solid.append_words {ws : List (List Char)} (ha : Solid a)
    (h : ∀ w ∈ ws, Unbroken w ∧ w ≠ []) : Solid (a ++ ws.flatMap (' ' :: ·)) := by
  induction ws generalizing a with
  | nil => rwa [List.flatMap_nil, List.append_nil]
  | cons w ws ih =>
      obtain ⟨⟨hw, hne⟩, hws⟩ := List.forall_mem_cons.1 h
      rw [List.flatMap_cons, ← List.append_assoc]
      exact ih (ha.append_space (.of_unbroken hw hne)) hws

theorem blanks_of_words_eq_nil (h : words s = []) : Blanks s := by
  have hsqueeze := squeeze_eq_flatten_words s
  rw [h, List.flatten_nil, squeeze, List.filter_eq_nil_iff] at hsqueeze
  intro c hc
  simpa using hsqueeze c hc

/-- The first character of words behind blanks is that of the first word. -/
theorem head?_trimStart_words {ws : List (List Char)} (h : ∀ w ∈ ws, Unbroken w ∧ w ≠ []) :
    (trimStart (ws.flatMap (' ' :: ·))).head? = ws.head?.bind List.head? := by
  cases ws with
  | nil => rfl
  | cons w ws =>
      obtain ⟨hw, hne⟩ := h w List.mem_cons_self
      rw [List.flatMap_cons, ← List.singleton_append, List.append_assoc,
        trimStart_append_of_blanks blanks_space, trimStart_of_head,
        List.head?_append_of_ne_nil w hne]
      · rfl
      · rw [List.head?_append_of_ne_nil w hne, List.head?_eq_some_head hne, Option.all_some,
          hw _ (List.head_mem hne)]
        rfl

end SsaIr.Text
