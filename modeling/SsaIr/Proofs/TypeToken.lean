import SsaIr.Proofs.Text.Brackets
import SsaIr.Proofs.Text.Line
import SsaIr.TypeToken

/-!
# Type tokens are read back

A type token that was taken from a text is taken again, as it is, from any text that starts with
it and goes on with a blank or a comma. Where a token ends thus depends on nothing behind it, only
on the brackets within.
-/

namespace SsaIr.TypeToken

open Text

variable {c : Char} {s t r u head rest : List Char}

theorem takeHead_bracket (hc : c = '[' ∨ c = '\x7b' ∨ c = '<') :
    takeHead (c :: s) =
      match takeBracketed? {} (c :: s) with
      | some (head, rest) =>
        .ok (head ++ rest.takeWhile (· == '*'), rest.dropWhile (· == '*'))
      | none => .error (.unbalancedBrackets (String.ofList (c :: s))) := by
  rcases hc with rfl | rfl | rfl <;> rfl

/-- What ends a plain run. -/
def stops (c : Char) : Bool := isBlank c || c == ','

theorem takeHead_run (hs : ∀ c, s.head? = some c → c ≠ '[' ∧ c ≠ '\x7b' ∧ c ≠ '<') :
    takeHead s = .ok (s.takeWhile (!stops ·), s.dropWhile (!stops ·)) := by
  unfold takeHead
  split
  · exact absurd rfl (hs _ rfl).1
  · exact absurd rfl (hs _ rfl).2.1
  · exact absurd rfl (hs _ rfl).2.2
  · rfl

theorem takeWhile_append_of_head {p : Char → Bool} (ht : ∀ c ∈ t, p c = true)
    (hu : ∀ c, u.head? = some c → p c = false) :
    (t ++ u).takeWhile p = t ∧ (t ++ u).dropWhile p = u := by
  rw [List.takeWhile_append_of_pos ht, List.dropWhile_append_of_pos ht]
  cases u with
  | nil => exact ⟨List.append_nil t, rfl⟩
  | cons c u =>
      have hc := Bool.eq_false_iff.1 (hu c rfl)
      rw [List.takeWhile_cons_of_neg hc, List.dropWhile_cons_of_neg hc, List.append_nil]
      exact ⟨rfl, rfl⟩

theorem head?_dropWhile {p : Char → Bool} (h : (s.dropWhile p).head? = some c) : p c = false := by
  have hnot := List.head?_dropWhile_not p s
  rw [h] at hnot
  simpa using hnot

/-- The head of a type is a bracket with stars behind it, or a plain run. -/
theorem takeHead_cases (h : takeHead s = .ok (head, rest)) :
    (∃ c bracket behind, (c = '[' ∨ c = '\x7b' ∨ c = '<') ∧
      takeBracketed? {} s = some (c :: bracket, behind) ∧
      head = c :: bracket ++ behind.takeWhile (· == '*') ∧
      rest = behind.dropWhile (· == '*')) ∨
    ((∀ c, s.head? = some c → c ≠ '[' ∧ c ≠ '\x7b' ∧ c ≠ '<') ∧
      head = s.takeWhile (!stops ·) ∧ rest = s.dropWhile (!stops ·)) := by
  by_cases hs : ∀ c, s.head? = some c → c ≠ '[' ∧ c ≠ '\x7b' ∧ c ≠ '<'
  · right
    rw [takeHead_run hs] at h
    obtain ⟨rfl, rfl⟩ := Prod.mk.inj (Except.ok.inj h)
    exact ⟨hs, rfl, rfl⟩
  · left
    cases s with
    | nil => exact absurd (fun c hc => by cases hc) hs
    | cons c s =>
        have hc : c = '[' ∨ c = '\x7b' ∨ c = '<' := by
          simp only [List.head?_cons, Option.some.injEq, forall_eq', not_and_or, not_not] at hs
          exact hs
        rw [takeHead_bracket hc] at h
        cases hb : takeBracketed? {} (c :: s) with
        | none =>
            rw [hb] at h
            cases h
        | some p =>
            obtain ⟨bracket, behind⟩ := p
            rw [hb] at h
            obtain ⟨rfl, rfl⟩ := Prod.mk.inj (Except.ok.inj h)
            have hopening : isOpening c = true := by
              rcases hc with rfl | rfl | rfl <;> rfl
            obtain ⟨x, d, rfl, -⟩ := takeBracketed?_cons_eq_some hopening hb
            exact ⟨c, x ++ [d], behind, hc, rfl, rfl, rfl⟩

/-- The head of a type is taken again from a text that goes on with what may follow it. -/
theorem takeHead_append (h : takeHead s = .ok (head, rest)) (hne : head ≠ [])
    (hu : ∀ c, u.head? = some c → stops c = true ∨ rest.head? = some c) :
    takeHead (head ++ u) = .ok (head, u) := by
  rcases takeHead_cases h with ⟨c, bracket, behind, hc, hb, rfl, rfl⟩ | ⟨hs, rfl, rfl⟩
  · have hstars : ∀ c ∈ behind.takeWhile (· == '*'), (c == '*') = true := fun c hc =>
      List.all_eq_true.1 List.all_takeWhile c hc
    have hstop : ∀ c, u.head? = some c → (c == '*') = false := by
      intro c hc
      rcases hu c hc with hc | hc
      · rw [Bool.eq_false_iff, ne_eq, beq_iff_eq]
        rintro rfl
        cases hc
      · exact head?_dropWhile (p := (· == '*')) hc
    obtain ⟨htake, hdrop⟩ := takeWhile_append_of_head hstars hstop
    have hagain := takeBracketed?_append (t := behind.takeWhile (· == '*') ++ u) hb
    rw [List.append_assoc, List.cons_append, takeHead_bracket hc, ← List.cons_append, hagain]
    dsimp only
    rw [htake, hdrop]
  · have hrun : ∀ c ∈ s.takeWhile (!stops ·), (!stops c) = true := fun c hc =>
      List.all_eq_true.1 List.all_takeWhile c hc
    have hstop : ∀ c, u.head? = some c → (!stops c) = false := by
      intro c hc
      rcases hu c hc with hc | hc
      · rw [hc]
        rfl
      · exact head?_dropWhile (p := (!stops ·)) hc
    obtain ⟨htake, hdrop⟩ := takeWhile_append_of_head hrun hstop
    rw [takeHead_run, htake, hdrop]
    intro c hc
    rw [List.head?_append_of_ne_nil _ hne] at hc
    apply hs
    rw [← List.takeWhile_append_dropWhile (p := (!stops ·)) (l := s),
      List.head?_append_of_ne_nil _ hne]
    exact hc

/-- How a type token is taken: a head, or a head with blanks, parameters and stars behind it. -/
theorem take_cases (h : take s = .ok (t, r)) :
    ∃ head rest, takeHead (trimStart s) = .ok (head, rest) ∧
      ((t = head ∧ r = trimStart rest ∧ (trimStart rest).head? ≠ some '(') ∨
        ∃ after params rest', trimStart rest = '(' :: after ∧
          takeBracketed? {} ('(' :: after) = some (params, rest') ∧
          t = head ++ rest.takeWhile isBlank ++ params ++ rest'.takeWhile (· == '*') ∧
          r = trimStart (rest'.dropWhile (· == '*'))) := by
  unfold take at h
  dsimp only at h
  split at h
  · cases h
  · split at h
    · cases h
    · next head rest hhead =>
        refine ⟨head, rest, hhead, ?_⟩
        split at h
        · next after hafter =>
            right
            split at h
            · next params rest' hparams =>
                obtain ⟨rfl, rfl⟩ := Prod.mk.inj (Except.ok.inj h)
                exact ⟨after, params, rest', hafter, hparams, rfl, rfl⟩
            · cases h
        · next hno =>
            left
            obtain ⟨rfl, rfl⟩ := Prod.mk.inj (Except.ok.inj h)
            refine ⟨rfl, rfl, fun hparen => ?_⟩
            cases hrest : trimStart rest with
            | nil =>
                rw [hrest] at hparen
                cases hparen
            | cons c after =>
                rw [hrest] at hparen
                obtain rfl := Option.some.inj hparen
                exact hno after hrest

/-- What follows a type token starts with no blank. -/
theorem head?_rest_of_take (h : take s = .ok (t, r)) : r.head?.all (!isBlank ·) = true := by
  obtain ⟨head, rest, -, ⟨-, rfl, -⟩ | ⟨after, params, rest', -, -, -, rfl⟩⟩ := take_cases h
  · exact head?_trimStart rest
  · exact head?_trimStart _

theorem last_stars (hs : s.getLast?.any (!isBlank ·) = true) :
    (s ++ t.takeWhile (· == '*')).getLast?.any (!isBlank ·) = true := by
  cases ht : (t.takeWhile (· == '*')).getLast? with
  | none =>
      rw [List.getLast?_eq_none_iff.1 ht, List.append_nil]
      exact hs
  | some c =>
      have hmem := List.mem_of_getLast? ht
      have hc : (c == '*') = true := List.all_eq_true.1 List.all_takeWhile c hmem
      rw [List.getLast?_append, ht, beq_iff_eq.1 hc]
      rfl

theorem last_bracket {n : Nesting} (h : takeBracketed? n s = some (t, r)) :
    t.getLast?.any (!isBlank ·) = true := by
  obtain ⟨x, c, rfl, hc⟩ := exists_of_takeBracketed? h
  have hneutral : ¬Nesting.Neutral c := fun hn => by
    rw [hn.2.2] at hc
    cases hc
  rw [List.getLast?_concat, Option.any_some, Bool.not_eq_true', Bool.eq_false_iff]
  exact fun hblank => hneutral (Nesting.neutral_of_isBlank hblank)

theorem last_takeHead (h : takeHead s = .ok (head, rest)) (hne : head ≠ []) :
    head.getLast?.any (!isBlank ·) = true := by
  rcases takeHead_cases h with ⟨c, bracket, behind, hc, hb, rfl, rfl⟩ | ⟨hs, rfl, rfl⟩
  · exact last_stars (last_bracket hb)
  · have hmem := List.getLast_mem hne
    have hrun := List.all_eq_true.1 (List.all_takeWhile (p := (!stops ·))) _ hmem
    rw [List.getLast?_eq_some_getLast hne, Option.any_some]
    rw [stops, Bool.not_or, Bool.and_eq_true] at hrun
    exact hrun.1

/-- A type token is solid. -/
theorem solid_of_take (h : take s = .ok (t, r)) (ht : t ≠ []) : Solid t := by
  constructor
  · obtain ⟨gap, -, hs⟩ := exists_append_of_take h
    have hhead := head?_trimStart s
    rw [hs, List.append_assoc, List.head?_append_of_ne_nil _ ht, List.head?_eq_some_head ht]
      at hhead
    rw [List.head?_eq_some_head ht]
    exact hhead
  · obtain ⟨head, rest, hhead, ⟨rfl, -, -⟩ | ⟨after, params, rest', -, hparams, rfl, -⟩⟩ :=
      take_cases h
    · exact last_takeHead hhead ht
    · apply last_stars
      rw [List.getLast?_append]
      have hlast := last_bracket hparams
      cases hp : params.getLast? with
      | none =>
          rw [hp] at hlast
          cases hlast
      | some c =>
          rw [hp] at hlast
          exact hlast

/-- Only in front of a comma the head of a type is empty. -/
theorem head?_of_takeHead_nil (h : takeHead s = .ok ([], rest)) (hs : s ≠ [])
    (hhead : s.head?.all (!isBlank ·) = true) : rest.head? = some ',' := by
  rcases takeHead_cases h with ⟨c, bracket, behind, -, -, hnil, -⟩ | ⟨-, hrun, rfl⟩
  · cases hnil
  · cases s with
    | nil => exact absurd rfl hs
    | cons c s =>
        have hstop : stops c = true := by
          cases hc : stops c with
          | true => rfl
          | false =>
              rw [List.takeWhile_cons_of_pos (by rw [hc]; rfl)] at hrun
              cases hrun
        have hcomma : c = ',' := by
          rw [List.head?_cons, Option.all_some, Bool.not_eq_true'] at hhead
          simpa [stops, hhead] using hstop
        rw [List.dropWhile_cons_of_neg (by simp [hstop]), hcomma]
        rfl

theorem head?_trimStart_of_comma (h : s.head? = some ',') : (trimStart s).head? = some ',' := by
  rw [trimStart_of_head, h]
  rw [h]
  rfl

/-- In front of a parenthesis the head of a type is not empty. -/
theorem takeHead_ne_nil (h : takeHead (trimStart s) = .ok (head, rest)) (hs : trimStart s ≠ [])
    (hparen : (trimStart rest).head? = some '(') : head ≠ [] := by
  rintro rfl
  have hcomma := head?_trimStart_of_comma (head?_of_takeHead_nil h hs (head?_trimStart s))
  rw [hparen] at hcomma
  cases hcomma

theorem trimStart_ne_nil_of_take (h : take s = .ok (t, r)) : trimStart s ≠ [] := by
  intro hs
  rw [take, hs] at h
  cases h

/-- Only a text that starts with a comma has an empty type. -/
theorem head?_of_take_nil (h : take s = .ok ([], r)) : r.head? = some ',' := by
  have hne := trimStart_ne_nil_of_take h
  obtain ⟨head, rest, hhead, ⟨rfl, rfl, -⟩ | ⟨after, params, rest', hafter, -, ht, -⟩⟩ :=
    take_cases h
  · exact head?_trimStart_of_comma (head?_of_takeHead_nil hhead hne (head?_trimStart s))
  · simp only [List.nil_eq, List.append_eq_nil_iff] at ht
    exact absurd ht.1.1.1 (takeHead_ne_nil hhead hne (by rw [hafter]; rfl))

/-- What has no comma at the top level does not start with one. -/
theorem ne_nil_of_piece (h : take s = .ok (t, r)) (hs : Piece s) : t ≠ [] := by
  rintro rfl
  obtain ⟨gap, hgap, hsplit⟩ := exists_append_of_take h
  have hcomma := head?_of_take_nil h
  have hpiece : Piece (gap ++ r) := by
    rw [List.nil_append] at hsplit
    rwa [← hsplit, piece_trimStart]
  have hr := hpiece.of_append_left (Blanks.piece hgap)
  cases r with
  | nil => cases hcomma
  | cons c r =>
      obtain rfl := Option.some.inj hcomma
      exact not_piece_comma hr

theorem piece_of_take (h : take s = .ok (t, r)) (hs : Piece s) (hr : Balanced r) : Piece t := by
  obtain ⟨gap, hgap, hsplit⟩ := exists_append_of_take h
  rw [← piece_trimStart, hsplit] at hs
  exact (hs.of_append_right hr).of_append_right (Blanks.piece hgap).balanced

theorem take_of_head (hs : s ≠ []) (hstart : s.head?.all (!isBlank ·) = true)
    (hhead : takeHead s = .ok (head, rest)) (hparen : (trimStart rest).head? ≠ some '(') :
    take s = .ok (head, trimStart rest) := by
  have hempty : s.isEmpty = false := List.isEmpty_eq_false_iff.2 hs
  unfold take
  rw [trimStart_of_head hstart]
  dsimp only
  rw [hempty, if_neg Bool.false_ne_true, hhead]
  dsimp only
  split
  · next after hafter =>
      rw [hafter] at hparen
      exact absurd rfl hparen
  · rfl

theorem take_of_params {after params rest' : List Char} (hs : s ≠ [])
    (hstart : s.head?.all (!isBlank ·) = true) (hhead : takeHead s = .ok (head, rest))
    (hafter : trimStart rest = '(' :: after)
    (hparams : takeBracketed? {} ('(' :: after) = some (params, rest')) :
    take s = .ok (head ++ rest.takeWhile isBlank ++ params ++ rest'.takeWhile (· == '*'),
      trimStart (rest'.dropWhile (· == '*'))) := by
  have hempty : s.isEmpty = false := List.isEmpty_eq_false_iff.2 hs
  unfold take
  rw [trimStart_of_head hstart]
  dsimp only
  rw [hempty, if_neg Bool.false_ne_true, hhead]
  dsimp only
  rw [hafter]
  simp only [hparams]

/-- The head of a function type is taken again in front of other parameters. -/
theorem takeHead_append_params {after : List Char} (h : takeHead s = .ok (head, rest))
    (hne : head ≠ []) (hafter : trimStart rest = '(' :: after) :
    takeHead (head ++ (rest.takeWhile isBlank ++ '(' :: u)) =
      .ok (head, rest.takeWhile isBlank ++ '(' :: u) := by
  apply takeHead_append h hne
  intro c hc
  right
  have hrest : rest.takeWhile isBlank ++ '(' :: after = rest := by
    rw [← hafter]
    exact takeWhile_append_trimStart rest
  rw [← hrest]
  cases hb : rest.takeWhile isBlank with
  | nil =>
      rw [hb] at hc
      exact hc
  | cons e blanks =>
      rw [hb] at hc
      exact hc

/-- A type token is taken again from a text that goes on with a blank or a comma. -/
theorem take_append (h : take s = .ok (t, r)) (ht : t ≠ [])
    (hu : ∀ c, u.head? = some c → stops c = true) (hparen : (trimStart u).head? ≠ some '(') :
    take (t ++ u) = .ok (t, trimStart u) := by
  have hne : t ++ u ≠ [] := List.append_ne_nil_of_left_ne_nil ht u
  have hstart : (t ++ u).head?.all (!isBlank ·) = true := by
    rw [List.head?_append_of_ne_nil _ ht]
    have hhead := (solid_of_take h ht).head
    rw [List.head?_eq_some_head ht] at hhead ⊢
    exact hhead
  obtain ⟨head, rest, hhead, ⟨rfl, -, -⟩ | ⟨after, params, rest', hafter, hparams, rfl, -⟩⟩ :=
    take_cases h
  · exact take_of_head hne hstart (takeHead_append hhead ht fun c hc => .inl (hu c hc)) hparen
  · have hhead_ne : head ≠ [] :=
      takeHead_ne_nil hhead (trimStart_ne_nil_of_take h) (by rw [hafter]; rfl)
    obtain ⟨x, d, rfl, -, -⟩ := takeBracketed?_cons_eq_some rfl hparams
    set stars := rest'.takeWhile (· == '*') with hstars
    have hstars_all : ∀ c ∈ stars, (c == '*') = true := fun c hc =>
      List.all_eq_true.1 List.all_takeWhile c hc
    have hstop : ∀ c, u.head? = some c → (c == '*') = false := by
      intro c hc
      rw [Bool.eq_false_iff, ne_eq, beq_iff_eq]
      rintro rfl
      cases hu _ hc
    obtain ⟨htake, hdrop⟩ := takeWhile_append_of_head hstars_all hstop
    have hagain := takeHead_append_params (u := x ++ [d] ++ (stars ++ u)) hhead hhead_ne hafter
    set blanks := rest.takeWhile isBlank with hblanks
    have hsplit := takeWhile_append_of_head (t := blanks) (u := '(' :: (x ++ [d] ++ (stars ++ u)))
      (p := isBlank) (blanks_takeWhile rest) (by
        intro c hc
        obtain rfl := Option.some.inj hc
        rfl)
    have hresult := take_of_params (by simp) (by simpa using hstart) hagain hsplit.2
      (takeBracketed?_append (t := stars ++ u) hparams)
    rw [hsplit.1, htake, hdrop] at hresult
    simpa using hresult

/-- A text that is taken as a type from every text that starts with it and goes on with a blank or
a comma, unless that makes it a function type. -/
structure IsToken (t : List Char) : Prop where
  solid : Solid t
  take : ∀ u : List Char, (∀ c, u.head? = some c → stops c = true) →
    (trimStart u).head? ≠ some '(' → take (t ++ u) = .ok (t, trimStart u)

theorem isToken_of_take (h : take s = .ok (t, r)) (ht : t ≠ []) : IsToken t :=
  ⟨solid_of_take h ht, fun _ hu hparen => take_append h ht hu hparen⟩

theorem isToken_label : IsToken label.toList :=
  isToken_of_take (s := label.toList) (r := []) rfl (by decide)

theorem isToken_metadata : IsToken metadata.toList :=
  isToken_of_take (s := metadata.toList) (r := []) rfl (by decide)

theorem isToken_void : IsToken void.toList :=
  isToken_of_take (s := void.toList) (r := []) rfl (by decide)

theorem IsToken.take_self (h : IsToken t) : TypeToken.take t = .ok (t, []) := by
  have htake := h.take [] (fun c hc => by cases hc) (by decide)
  rwa [List.append_nil] at htake

/-- A token is taken from in front of a blank and what starts with no parenthesis. -/
theorem IsToken.take_space (h : IsToken t) (hr : r.head?.all (!isBlank ·) = true)
    (hparen : r.head? ≠ some '(') : TypeToken.take (t ++ ' ' :: r) = .ok (t, r) := by
  have hstart : trimStart (' ' :: r) = r := by
    have hskip := trimStart_append_of_blanks (s := r) blanks_space
    rw [List.singleton_append] at hskip
    rw [hskip, trimStart_of_head hr]
  have hspace : ∀ c, (' ' :: r).head? = some c → stops c = true := by
    intro c hc
    obtain rfl := Option.some.inj hc
    rfl
  have htake := h.take (' ' :: r) hspace (by rwa [hstart])
  rwa [hstart] at htake

/-- A type token and what follows it are the text, up to blanks, and the token is taken again
from in front of one blank and any text that does not start with a blank or a parenthesis. A
bracket is taken up to where the depth, counted from there, first is zero again, so the text
between the two brackets lies within the text. -/
theorem take_delimits_itself :
    (∀ s t r, take s = .ok (t, r) →
      (∃ gap, Blanks gap ∧ trimStart s = t ++ gap ++ r) ∧ r.head?.all (!isBlank ·) = true ∧
        (t ≠ [] → ∀ c v, isBlank c = false → c ≠ '(' →
          take (t ++ ' ' :: c :: v) = .ok (t, c :: v))) ∧
    ∀ s start o, s[start]? = some o → isOpening o = true → ∀ bracket rest,
      takeBracketed? {} (s.drop start) = some (bracket, rest) ↔
        ∃ stop, ClosesAt s start stop ∧
          bracket = (s.take stop).drop start ∧ rest = s.drop stop ∧
            bracket.tail.dropLast = (s.take (stop - 1)).drop (start + 1) := by
  constructor
  · intro s t r h
    refine ⟨exists_append_of_take h, head?_rest_of_take h, fun ht c v hc hparen => ?_⟩
    apply (isToken_of_take h ht).take_space
    · rw [List.head?_cons, Option.all_some, hc]
      rfl
    · rw [List.head?_cons, ne_eq, Option.some.injEq]
      exact hparen
  · intro s start o hs ho bracket rest
    rw [takeBracketed?_drop_iff hs ho]
    constructor
    · rintro ⟨stop, hcloses, rfl, rfl⟩
      exact ⟨stop, hcloses, rfl, rfl, hcloses.between⟩
    · rintro ⟨stop, hcloses, hbracket, hrest, -⟩
      exact ⟨stop, hcloses, hbracket, hrest⟩

/-- The type of a variadic function, and its parameters with a bracket between quotes. -/
theorem take_delimits_itself_variadic :
    take " i32 (i8*, \")\", ...)*  @printf".toList =
        .ok ("i32 (i8*, \")\", ...)*".toList, "@printf".toList) ∧
      take "i32 (i8*, \")\", ...)* ,*".toList =
        .ok ("i32 (i8*, \")\", ...)*".toList, ",*".toList) ∧
      ∃ stop, ClosesAt " i32 (i8*, \")\", ...)*".toList 5 stop ∧
        (" i32 (i8*, \")\", ...)*".toList.take (stop - 1)).drop 6 =
          "i8*, \")\", ...".toList := by
  have htake : take " i32 (i8*, \")\", ...)*  @printf".toList =
      .ok ("i32 (i8*, \")\", ...)*".toList, "@printf".toList) := rfl
  have hbracket : takeBracketed? {} (" i32 (i8*, \")\", ...)*".toList.drop 5) =
      some ("(i8*, \")\", ...)".toList, "*".toList) := rfl
  obtain ⟨stop, hcloses, -, -, hbetween⟩ :=
    (take_delimits_itself.2 " i32 (i8*, \")\", ...)*".toList 5 '(' rfl rfl _ _).1 hbracket
  exact ⟨htake, (take_delimits_itself.1 _ _ _ htake).2.2 (by decide) ',' ['*'] rfl (by decide),
    stop, hcloses, hbetween.symm⟩

/-- A type and what follows it may be written with one blank between. -/
theorem keeps_of_take (h : take s = .ok (t, r)) (hr : Keeps r u) : Keeps s (t ++ ' ' :: u) := by
  obtain ⟨gap, hgap, hs⟩ := exists_append_of_take h
  apply (Keeps.trimStart s).trans
  rw [hs, List.append_assoc]
  exact (Keeps.refl t).append ((Keeps.of_blanks hgap (b := [' ']) (by decide)).append hr)

end SsaIr.TypeToken
