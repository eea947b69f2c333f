import Mathlib.Data.List.Forall2
import SsaIr.Proofs.Text.Nesting
import SsaIr.Text.Line

/-!
# Quotes, comments and lines

Where a comment starts depends on the quotes in front of it. A text keeps another one if it can
stand in its place on a line: it needs no comment to end earlier, leaves the quotes as they were,
and brings in no newline.
-/

namespace SsaIr.Text

open Nesting

/-- Whether the end of a text is quoted; none if a semicolon stands outside quotes. -/
def scan? (quoted : Bool) : List Char → Option Bool
  | [] => some quoted
  | c :: cs =>
    if c = ';' ∧ quoted = false then none
    else scan? (if c = '"' then !quoted else quoted) cs

/-- Without quotes, semicolons and newlines. -/
def Plain (s : List Char) : Prop := ∀ c ∈ s, c ≠ '"' ∧ c ≠ ';' ∧ c ≠ '\n'

instance : DecidablePred Plain := fun s => List.decidableBAll _ s

/-- The second text can stand on a line in place of the first. -/
structure Keeps (a b : List Char) : Prop where
  scan : ∀ q r, scan? q a = some r → scan? q b = some r
  newline : '\n' ∈ b → '\n' ∈ a

variable {a b c d s t : List Char} {q r : Bool} {ps qs : List (List Char)}

theorem scan?_append : scan? q (a ++ b) = (scan? q a).bind fun r => scan? r b := by
  induction a generalizing q with
  | nil => rfl
  | cons c a ih =>
      rw [List.cons_append, scan?, scan?]
      split
      · rfl
      · exact ih

theorem quotedAfter_of_scan? (h : scan? q a = some r) : quotedAfter q a = r := by
  induction a generalizing q with
  | nil => exact Option.some.inj h
  | cons c a ih =>
      rw [scan?] at h
      split at h
      · cases h
      · exact ih h

theorem quotedAfter_of_not_mem (h : '"' ∉ a) : quotedAfter q a = q := by
  induction a with
  | nil => rfl
  | cons c a ih =>
      have hc : c ≠ '"' := fun he => h (he ▸ List.mem_cons_self)
      rw [quotedAfter, List.foldl_cons, if_neg hc]
      exact ih fun ha => h (List.mem_cons_of_mem c ha)

theorem scan?_of_plain (h : Plain a) : scan? q a = some q := by
  induction a with
  | nil => rfl
  | cons c a ih =>
      obtain ⟨⟨hquote, hsemicolon, -⟩, ha⟩ := List.forall_mem_cons.1 h
      rw [scan?, if_neg (fun hc => hsemicolon hc.1), if_neg hquote]
      exact ih ha

theorem Plain.append (ha : Plain a) (hb : Plain b) : Plain (a ++ b) := by
  intro c hc
  rcases List.mem_append.1 hc with hc | hc
  · exact ha c hc
  · exact hb c hc

theorem Blanks.not_mem_quote (h : Blanks s) : '"' ∉ s := fun hs =>
  absurd (h '"' hs) (by decide)

theorem scan?_of_blanks (h : Blanks s) : scan? q s = some q := by
  induction s with
  | nil => rfl
  | cons c s ih =>
      have hc := h c List.mem_cons_self
      have hsemicolon : c ≠ ';' := by
        rintro rfl
        cases hc
      have hquote : c ≠ '"' := by
        rintro rfl
        cases hc
      rw [scan?, if_neg (fun he => hsemicolon he.1), if_neg hquote]
      exact ih fun d hd => h d (List.mem_cons_of_mem c hd)

namespace Keeps

theorem refl (a : List Char) : Keeps a a := ⟨fun _ _ h => h, fun h => h⟩

theorem trans (hab : Keeps a b) (hbc : Keeps b c) : Keeps a c :=
  ⟨fun q r h => hbc.scan q r (hab.scan q r h), fun h => hab.newline (hbc.newline h)⟩

theorem append (hab : Keeps a b) (hcd : Keeps c d) : Keeps (a ++ c) (b ++ d) := by
  constructor
  · intro q r h
    rw [scan?_append] at h ⊢
    obtain ⟨m, ha, hc⟩ := Option.bind_eq_some_iff.1 h
    rw [hab.scan q m ha]
    exact hcd.scan m r hc
  · intro h
    rcases List.mem_append.1 h with h | h
    · exact List.mem_append_left c (hab.newline h)
    · exact List.mem_append_right a (hcd.newline h)

/-- What has no quotes may be replaced by any plain text. -/
theorem of_plain (ha : '"' ∉ a) (hb : Plain b) : Keeps a b := by
  constructor
  · intro q r h
    rw [scan?_of_plain hb, ← quotedAfter_of_scan? h, quotedAfter_of_not_mem ha]
  · intro h
    exact absurd rfl (hb _ h).2.2

/-- What has its quotes in pairs may be dropped in front of a text. -/
theorem drop_left (ha : quotedAfter false a = false) : Keeps (a ++ b) b := by
  constructor
  · intro q r h
    rw [scan?_append] at h
    obtain ⟨m, hm, hb⟩ := Option.bind_eq_some_iff.1 h
    have hq : m = q := by
      rw [← quotedAfter_of_scan? hm]
      cases q with
      | false => exact ha
      | true =>
          have hflip := quotedAfter_not false a
          rwa [ha] at hflip
    rwa [hq] at hb
  · exact List.mem_append_right a

theorem drop_right (hb : quotedAfter false b = false) : Keeps (a ++ b) a := by
  constructor
  · intro q r h
    rw [scan?_append] at h
    obtain ⟨m, hm, hmb⟩ := Option.bind_eq_some_iff.1 h
    have hr : r = m := by
      rw [← quotedAfter_of_scan? hmb]
      cases m with
      | false => exact hb
      | true =>
          have hflip := quotedAfter_not false b
          rwa [hb] at hflip
    rwa [hr]
  · exact List.mem_append_left b

theorem cons (c : Char) (h : Keeps a b) : Keeps (c :: a) (c :: b) := (refl [c]).append h

theorem of_blanks (ha : Blanks a) (hb : Plain b) : Keeps a b := of_plain ha.not_mem_quote hb

theorem blanks_append (ha : Blanks a) : Keeps (a ++ s) s :=
  (of_blanks ha (b := []) (by decide)).append (refl s)

theorem append_blanks (ha : Blanks a) : Keeps (s ++ a) s := by
  have h := (refl s).append (of_blanks ha (b := []) (by decide))
  rwa [List.append_nil] at h

theorem trim (s : List Char) : Keeps s (trim s) := by
  obtain ⟨a, b, ha, hb, hs⟩ := exists_trim s
  conv_lhs => rw [hs]
  exact (append_blanks hb).trans (blanks_append ha)

theorem trimStart (s : List Char) : Keeps s (trimStart s) := by
  obtain ⟨a, ha, hs⟩ := exists_trimStart s
  conv_lhs => rw [hs]
  exact blanks_append ha

theorem space : Keeps [] [' '] := of_plain List.not_mem_nil (by decide)

theorem nextToken (s : List Char) :
    Keeps s ((nextToken s).1 ++ ' ' :: (nextToken s).2) := by
  obtain ⟨a, g, ha, hg, hs⟩ := exists_nextToken s
  conv_lhs => rw [hs, List.append_assoc, List.append_assoc]
  exact (blanks_append ha).trans
    ((refl _).append ((of_blanks hg (b := [' ']) (by decide)).append (refl _)))

theorem words (s : List Char) : Keeps s ((words s).flatMap (' ' :: ·)) := by
  refine words_induction (P := fun s ws => Keeps s (ws.flatMap (' ' :: ·))) ?_ ?_ s
  · intro a ha
    exact of_blanks ha (by decide)
  · intro a w s ha _ _ _ ih
    exact ((of_blanks ha (b := [' ']) (by decide)).append (refl w)).append ih

/-- Words without quotes may be left out. -/
theorem filter_words {p : List Char → Bool} (h : ∀ w ∈ ps, p w = false → '"' ∉ w) :
    Keeps (ps.flatMap (' ' :: ·)) ((ps.filter p).flatMap (' ' :: ·)) := by
  induction ps with
  | nil => exact refl []
  | cons w ps ih =>
      obtain ⟨hw, hps⟩ := List.forall_mem_cons.1 h
      rw [List.flatMap_cons, List.filter_cons]
      split
      · rw [List.flatMap_cons]
        exact (refl _).append (ih hps)
      · next hp =>
          have hquote : '"' ∉ ' ' :: w := by
            simpa using hw (by simpa using hp)
          exact (of_plain (b := []) hquote (by decide)).append (ih hps)

theorem flatMap (h : List.Forall₂ Keeps (ps.map Text.trim) qs) :
    Keeps (ps.flatMap (',' :: ·)) ((qs.map (' ' :: ·)).flatMap (',' :: ·)) := by
  induction ps generalizing qs with
  | nil =>
      cases h
      exact refl []
  | cons p ps ih =>
      obtain ⟨q, qs, hq, hqs, rfl⟩ := List.forall₂_cons_left_iff.1 h
      exact (cons ',' (space.append ((trim p).trans hq))).append (ih hqs)

/-- Parts may be replaced one by one, and the list written with a blank behind each comma. -/
theorem intercalate (hs : splitTop? s = some ps) (h : List.Forall₂ Keeps ps qs) :
    Keeps s ([',', ' '].intercalate qs) := by
  rcases splitTop?_eq_some hs with ⟨rfl, hblanks⟩ | ⟨p, pieces, rfl, rfl, -⟩
  · cases h
    exact of_blanks hblanks (by decide)
  · obtain ⟨q, qs, hq, hqs, rfl⟩ := List.forall₂_cons_left_iff.1 h
    rw [intercalate_comma]
    exact ((trim p).trans hq).append (flatMap hqs)

/-- One part alone may take the place of the list, since the others balance their quotes. -/
theorem of_mem_splitTop? {p : List Char} (hs : splitTop? s = some ps) (hp : p ∈ ps) :
    Keeps s p := by
  rcases splitTop?_eq_some hs with ⟨rfl, -⟩ | ⟨first, pieces, rfl, rfl, hpieces⟩
  · cases hp
  · obtain ⟨hfirst, hrest⟩ := List.forall_mem_cons.1 hpieces
    obtain ⟨q, hq, rfl⟩ := List.mem_map.1 hp
    refine Keeps.trans ?_ (trim q)
    have hquotes : ∀ qs : List (List Char), (∀ q ∈ qs, Piece q) →
        quotedAfter false (qs.flatMap (',' :: ·)) = false := by
      intro qs hqs
      exact (balanced_of_pieces (p := []) rfl hqs).quotedAfter
    rcases List.mem_cons.1 hq with rfl | hq
    · exact drop_right (hquotes pieces hrest)
    · obtain ⟨before, after, rfl⟩ := List.append_of_mem hq
      have hbefore : ∀ q ∈ before, Piece q := fun q hq => hrest q (List.mem_append_left _ hq)
      have hafter : ∀ q ∈ after, Piece q := fun q hq =>
        hrest q (List.mem_append_right _ (List.mem_cons_of_mem _ hq))
      have hsplit : first ++ (before ++ q :: after).flatMap (',' :: ·) =
          (first ++ before.flatMap (',' :: ·)) ++ ([','] ++ (q ++ after.flatMap (',' :: ·))) := by
        simp
      rw [hsplit]
      apply (drop_left (balanced_of_pieces hfirst hbefore).quotedAfter).trans
      exact (drop_left rfl).trans (drop_right (hquotes after hafter))

end Keeps

/-- The last character that is not blank is a colon, as on a line that opens a block. -/
def EndsInColon (s : List Char) : Prop := (squeeze s).getLast? = some ':'

theorem EndsInColon.append_left (h : EndsInColon b) : EndsInColon (a ++ b) := by
  unfold EndsInColon at h
  rw [EndsInColon, squeeze_append, List.getLast?_append, h]
  rfl

theorem EndsInColon.of_append (h : EndsInColon (a ++ b)) (hb : squeeze b ≠ []) :
    EndsInColon b := by
  rw [EndsInColon, squeeze_append, List.getLast?_append, List.getLast?_eq_some_getLast hb] at h
  rw [EndsInColon, List.getLast?_eq_some_getLast hb]
  exact h

theorem Solid.squeeze_ne_nil (h : Solid s) : squeeze s ≠ [] := by
  intro hnil
  have hlast := h.last
  rw [List.getLast?_eq_some_getLast h.ne_nil, Option.any_some] at hlast
  have hmem : s.getLast h.ne_nil ∈ squeeze s := List.mem_filter.2 ⟨List.getLast_mem _, hlast⟩
  rw [hnil] at hmem
  cases hmem

theorem Solid.endsInColon_iff (h : Solid s) : EndsInColon s ↔ s.getLast? = some ':' := by
  have hlast := h.last
  rw [List.getLast?_eq_some_getLast h.ne_nil, Option.any_some] at hlast
  have hsplit := List.dropLast_append_getLast h.ne_nil
  rw [EndsInColon, List.getLast?_eq_some_getLast h.ne_nil]
  conv_lhs => rw [← hsplit, squeeze_append, squeeze_cons_of_not_blank (by simpa using hlast)]
  rw [List.getLast?_append]
  rfl

theorem endsInColon_trim : EndsInColon (trim s) ↔ EndsInColon s := by
  rw [EndsInColon, EndsInColon, squeeze_trim]

/-- The last part of a text ends as the text does. -/
theorem EndsInColon.of_last (hs : splitTop? s = some ps) {p : List Char}
    (hp : ps.getLast? = some p) (h : EndsInColon p) : EndsInColon s := by
  rcases splitTop?_eq_some hs with ⟨rfl, -⟩ | ⟨q, qs, rfl, rfl, -⟩
  · cases hp
  · rw [List.getLast?_map] at hp
    obtain ⟨r, hr, rfl⟩ := Option.map_eq_some_iff.1 hp
    rw [endsInColon_trim] at h
    rcases List.eq_nil_or_concat qs with rfl | ⟨init, last, rfl⟩
    · obtain rfl := Option.some.inj hr
      rwa [List.flatMap_nil, List.append_nil]
    · rw [List.concat_eq_append, ← List.cons_append, List.getLast?_concat] at hr
      obtain rfl := Option.some.inj hr
      rw [List.concat_eq_append, List.flatMap_append, List.flatMap_singleton, ← List.append_assoc,
        ← List.singleton_append, ← List.append_assoc]
      exact h.append_left

theorem endsInColon_of_nextToken (h : EndsInColon (nextToken s).2) : EndsInColon s := by
  obtain ⟨a, g, -, -, hs⟩ := exists_nextToken s
  rw [hs]
  exact h.append_left

/-- A line may be written as the second text where it was read as the first. -/
structure Rewrites (s out : List Char) : Prop where
  solid : Solid out
  keeps : Keeps s out
  colon : EndsInColon out → EndsInColon s

/-- The first token is written as it was read, and what follows it behind one blank. -/
theorem Rewrites.word (hne : (Text.nextToken s).1 ≠ []) (h : Rewrites (Text.nextToken s).2 a) :
    Rewrites s ((Text.nextToken s).1 ++ ' ' :: a) := by
  refine ⟨(Solid.of_unbroken (unbroken_nextToken s) hne).append_space h.solid, ?_, ?_⟩
  · exact (Keeps.nextToken s).trans ((Keeps.refl _).append (.cons ' ' h.keeps))
  · intro hend
    rw [← List.singleton_append, ← List.append_assoc] at hend
    exact endsInColon_of_nextToken (h.colon (hend.of_append h.solid.squeeze_ne_nil))

/-- The same text may stand in front of what is written again. -/
theorem Rewrites.behind (hb : b.head?.any (!isBlank ·) = true) (h : Rewrites s a) :
    Rewrites (b ++ s) (b ++ a) := by
  refine ⟨.append hb h.solid.last, (Keeps.refl b).append h.keeps, ?_⟩
  intro hend
  exact (h.colon (hend.of_append h.solid.squeeze_ne_nil)).append_left

/-- How a part of a line stands to the text it was read from, when it is written again. -/
structure Respelled (s out : List Char) : Prop where
  solid : Solid out
  source : Piece s
  piece : Piece out
  keeps : Keeps s out

/-! ## Comments -/

theorem cutComment?_eq_none_iff : cutComment? q s = none ↔ ∃ r, scan? q s = some r := by
  induction s generalizing q with
  | nil => exact iff_of_true rfl ⟨q, rfl⟩
  | cons c s ih =>
      rw [cutComment?, scan?]
      split
      · refine iff_of_false (Option.some_ne_none _) ?_
        rintro ⟨r, hr⟩
        cases hr
      · rw [Option.map_eq_none_iff, ih]

theorem cutComment?_eq_some_iff :
    cutComment? q s = some (a, b) ↔
      s = a ++ b ∧ scan? q a = some false ∧ b.head? = some ';' := by
  induction s generalizing q a with
  | nil =>
      constructor
      · intro h
        cases h
      · rintro ⟨hs, -, hb⟩
        obtain ⟨-, rfl⟩ := List.append_eq_nil_iff.1 hs.symm
        cases hb
  | cons c s ih =>
      rw [cutComment?]
      by_cases hc : c = ';' ∧ q = false
      · rw [if_pos hc]
        constructor
        · intro h
          obtain ⟨rfl, rfl⟩ := Prod.mk.inj (Option.some.inj h)
          exact ⟨rfl, by rw [hc.2]; rfl, by rw [hc.1]; rfl⟩
        · rintro ⟨hs, hscan, -⟩
          cases a with
          | nil => rw [hs]; rfl
          | cons d a =>
              rw [List.cons_append, List.cons.injEq] at hs
              rw [scan?, ← hs.1, if_pos hc] at hscan
              cases hscan
      · rw [if_neg hc, map_cons_eq_some_iff]
        constructor
        · rintro ⟨front, rfl, hfront⟩
          obtain ⟨rfl, hscan, hhead⟩ := ih.1 hfront
          rw [scan?, if_neg hc]
          exact ⟨rfl, hscan, hhead⟩
        · rintro ⟨hs, hscan, hhead⟩
          cases a with
          | nil =>
              obtain rfl : c :: s = b := hs
              exact absurd ⟨Option.some.inj hhead, Option.some.inj hscan⟩ hc
          | cons d a =>
              obtain ⟨rfl, hrest⟩ := List.cons.inj hs
              rw [scan?, if_neg hc] at hscan
              exact ⟨a, rfl, ih.2 ⟨hrest, hscan, hhead⟩⟩

/-- Code that may stand on a line with that comment behind it: the comment is one, and it starts
where the code ends. -/
structure Splits (code : List Char) (comment : Option (List Char)) : Prop where
  scan : ∃ q, scan? false code = some q ∧ (comment.isSome = true → q = false)
  comment : ∀ c ∈ comment, ∃ b r, Blanks b ∧ c = b ++ ';' :: r

variable {comment : Option (List Char)}

theorem blanks_trailingBlanks (s : List Char) : Blanks (trailingBlanks s) := by
  intro c hc
  exact List.all_eq_true.1 List.all_takeWhile c (List.mem_reverse.1 hc)

theorem splits_splitComment (line : List Char) :
    Splits (splitComment line).1 (splitComment line).2 := by
  rw [splitComment]
  cases h : cutComment? false line with
  | none =>
      obtain ⟨r, hr⟩ := cutComment?_eq_none_iff.1 h
      exact ⟨⟨r, hr, fun hn => by cases hn⟩, fun c hc => by cases hc⟩
  | some p =>
      obtain ⟨code, comment⟩ := p
      obtain ⟨-, hscan, hhead⟩ := cutComment?_eq_some_iff.1 h
      constructor
      · refine ⟨false, ?_, fun _ => rfl⟩
        rw [← trimEnd_append_trailingBlanks code, scan?_append] at hscan
        obtain ⟨r, hr, hb⟩ := Option.bind_eq_some_iff.1 hscan
        have hquote := quotedAfter_of_not_mem (q := r) (blanks_trailingBlanks code).not_mem_quote
        rw [quotedAfter_of_scan? hb] at hquote
        rwa [← hquote] at hr
      · intro c hc
        obtain rfl := Option.some.inj hc
        cases comment with
        | nil => cases hhead
        | cons d comment =>
            obtain rfl := Option.some.inj hhead
            exact ⟨_, comment, blanks_trailingBlanks code, rfl⟩

theorem Splits.keeps (h : Splits a comment) (hab : Keeps a b) : Splits b comment := by
  obtain ⟨q, hq, hcomment⟩ := h.scan
  exact ⟨⟨q, hab.scan false q hq, hcomment⟩, h.comment⟩

theorem Splits.without_comment (h : Splits a comment) : Splits a none := by
  obtain ⟨q, hq, -⟩ := h.scan
  exact ⟨⟨q, hq, fun hn => by cases hn⟩, fun c hc => by cases hc⟩

theorem trailingBlanks_append (hs : s.getLast?.all (!isBlank ·) = true) (hb : Blanks b) :
    trailingBlanks (s ++ b) = b := by
  have htrim : trimEnd (s ++ b) = s := by rw [trimEnd_append_of_blanks hb, trimEnd_of_last hs]
  have happend := trimEnd_append_trailingBlanks (s ++ b)
  rw [htrim] at happend
  exact List.append_cancel_left happend

/-- A comment written behind code is split off again. -/
theorem Splits.splitComment_append (h : Splits a comment)
    (ha : a.getLast?.all (!isBlank ·) = true) :
    splitComment (a ++ comment.getD []) = (a, comment) := by
  obtain ⟨q, hq, hcomment⟩ := h.scan
  cases comment with
  | none =>
      rw [Option.getD_none, List.append_nil, splitComment, cutComment?_eq_none_iff.2 ⟨q, hq⟩]
  | some c =>
      obtain ⟨b, r, hb, rfl⟩ := h.comment c rfl
      have hscan : scan? false (a ++ b) = some false := by
        rw [scan?_append, hq, hcomment rfl, Option.bind_some, scan?_of_blanks hb]
      have hcut : cutComment? false (a ++ (b ++ ';' :: r)) = some (a ++ b, ';' :: r) :=
        cutComment?_eq_some_iff.2 ⟨(List.append_assoc ..).symm, hscan, rfl⟩
      rw [Option.getD_some, splitComment, hcut]
      dsimp only
      rw [trimEnd_append_of_blanks hb, trimEnd_of_last ha, trailingBlanks_append ha hb]

/-! ## Lines -/

/-- No newline, and no carriage return at the end, which would belong to the line end. -/
structure IsLine (s : List Char) : Prop where
  newline : '\n' ∉ s
  last : s.getLast? ≠ some '\r'

theorem Solid.isLine (h : Solid s) (hn : '\n' ∉ s) : IsLine s := by
  refine ⟨hn, fun hlast => ?_⟩
  have hsolid := h.last
  rw [hlast] at hsolid
  cases hsolid

theorem not_mem_of_mem_lines (h : a ∈ lines s) : '\n' ∉ a := by
  induction s generalizing a with
  | nil => cases h
  | cons c s ih =>
      rw [lines] at h
      split at h
      · rcases List.mem_cons.1 h with rfl | h
        · exact List.not_mem_nil
        · exact ih h
      · next hc =>
          split at h
          · exact ih h
          · cases hl : lines s with
            | nil =>
                rw [hl] at h
                obtain rfl := List.mem_singleton.1 h
                simpa using Ne.symm hc
            | cons l ls =>
                rw [hl] at h ih
                rcases List.mem_cons.1 h with rfl | h
                · simpa [Ne.symm hc] using ih List.mem_cons_self
                · exact ih (List.mem_cons_of_mem l h)

/-- The text without a carriage return at its end. -/
def chomp (s : List Char) : List Char := if s.getLast? = some '\r' then s.dropLast else s

theorem chomp_of_last (h : s.getLast? ≠ some '\r') : chomp s = s := if_neg h

theorem chomp_append (hb : b = [] → a.getLast? ≠ some '\r') : chomp (a ++ b) = a ++ chomp b := by
  by_cases hnil : b = []
  · rw [hnil, List.append_nil, chomp_of_last (hb hnil)]
    exact (List.append_nil a).symm
  · rw [chomp, chomp, List.getLast?_append_of_ne_nil _ hnil]
    split
    · exact List.dropLast_append_of_ne_nil hnil
    · rfl

/-- A line ends at the newline, and a carriage return in front of it belongs to the line end. -/
theorem lines_append_newline (h : '\n' ∉ a) : lines (a ++ '\n' :: s) = chomp a :: lines s := by
  induction a with
  | nil => rw [List.nil_append, lines, if_pos rfl, chomp_of_last (by decide)]
  | cons c a ih =>
      obtain ⟨hc, ha⟩ := not_or.1 (mt List.mem_cons.2 h)
      rw [List.cons_append, lines, if_neg (Ne.symm hc)]
      cases a with
      | nil =>
          by_cases hcr : c = '\r'
          · rw [if_pos ⟨hcr, rfl⟩, List.nil_append, lines, if_pos rfl, hcr]
            rfl
          · have hchomp : chomp [c] = [c] := chomp_of_last (by simp [hcr])
            rw [if_neg (fun hand => hcr hand.1), ih ha, hchomp]
            rfl
      | cons d a =>
          have hd : ¬(c = '\r' ∧ (d :: a ++ '\n' :: s).head? = some '\n') := fun hand =>
            ha (Option.some.inj hand.2 ▸ List.mem_cons_self)
          have hchomp : chomp (c :: d :: a) = c :: chomp (d :: a) :=
            chomp_append (a := [c]) fun hnil => absurd hnil (List.cons_ne_nil d a)
          rw [if_neg hd, ih ha, hchomp]
          rfl

/-- Lines of a text that is made up of texts without newlines. -/
theorem lines_flatMap_newline {ls : List (List Char)} (h : ∀ l ∈ ls, '\n' ∉ l) :
    lines (ls.flatMap (· ++ ['\n'])) = ls.map chomp := by
  induction ls with
  | nil => rfl
  | cons l ls ih =>
      obtain ⟨hl, hls⟩ := List.forall_mem_cons.1 h
      rw [List.flatMap_cons, List.append_assoc, List.singleton_append, lines_append_newline hl,
        ih hls, List.map_cons]

/-- Lines are read back from the text they make up. -/
theorem lines_flatMap {ls : List (List Char)} (h : ∀ l ∈ ls, IsLine l) :
    lines (ls.flatMap (· ++ ['\n'])) = ls := by
  rw [lines_flatMap_newline fun l hl => (h l hl).newline]
  exact (List.map_congr_left fun l hl => chomp_of_last (h l hl).last).trans (List.map_id _)

/-- Code and a comment that can be written on one line. -/
structure Writable (code : List Char) (comment : Option (List Char)) : Prop where
  solid : Solid code
  splits : Splits code comment
  newline : '\n' ∉ code ++ comment.getD []
  last : ∀ c ∈ comment, c.getLast? ≠ some '\r'

theorem Writable.isLine (h : Writable a comment) (hb : Plain b) :
    IsLine (b ++ a ++ comment.getD []) := by
  constructor
  · rw [List.append_assoc, List.mem_append, not_or]
    exact ⟨fun hn => (hb _ hn).2.2 rfl, h.newline⟩
  · cases comment with
    | none =>
        rw [Option.getD_none, List.append_nil, List.getLast?_append_of_ne_nil _ h.solid.ne_nil]
        intro hlast
        have hsolid := h.solid.last
        rw [hlast] at hsolid
        cases hsolid
    | some c =>
        obtain ⟨b', r, -, hc⟩ := h.splits.comment c rfl
        have hne : c ≠ [] := by
          rw [hc]
          simp
        rw [Option.getD_some, List.getLast?_append_of_ne_nil _ hne]
        exact h.last c rfl

theorem Writable.splitComment_append (h : Writable a comment) (hb : Plain b) :
    splitComment (b ++ a ++ comment.getD []) = (b ++ a, comment) := by
  have hkeeps : Keeps ([] ++ a) (b ++ a) :=
    .append (.of_plain List.not_mem_nil hb) (.refl a)
  apply (h.splits.keeps hkeeps).splitComment_append
  rw [List.getLast?_append_of_ne_nil _ h.solid.ne_nil]
  have hlast := h.solid.last
  rw [List.getLast?_eq_some_getLast h.solid.ne_nil] at hlast ⊢
  exact hlast

theorem Writable.isLine_at_start (h : Writable a comment) : IsLine (a ++ comment.getD []) :=
  h.isLine (b := []) (by decide)

theorem Writable.splitComment_at_start (h : Writable a comment) :
    splitComment (a ++ comment.getD []) = (a, comment) :=
  h.splitComment_append (b := []) (by decide)

/-- What takes the place of the code of a line can be written with the comment of that line. -/
theorem Keeps.writable {line : List Char} (h : Keeps (Text.trim (splitComment line).1) s)
    (hs : Solid s) (hn : '\n' ∉ line)
    (hlast : ∀ c ∈ (splitComment line).2, c.getLast? ≠ some '\r') :
    Writable s (splitComment line).2 := by
  have hkeeps : Keeps (splitComment line).1 s := (Keeps.trim _).trans h
  rw [← Text.splitComment_append line, List.mem_append, not_or] at hn
  refine ⟨hs, (splits_splitComment line).keeps hkeeps, ?_, hlast⟩
  rw [List.mem_append, not_or]
  exact ⟨fun hmem => hn.1 (hkeeps.newline hmem), hn.2⟩

theorem Rewrites.writable_alone {line : List Char}
    (h : Rewrites (Text.trim (splitComment line).1) s) (hn : '\n' ∉ line) : Writable s none := by
  have hkeeps : Keeps (splitComment line).1 s := (Keeps.trim _).trans h.keeps
  rw [← Text.splitComment_append line, List.mem_append, not_or] at hn
  refine ⟨h.solid, ((splits_splitComment line).keeps hkeeps).without_comment, ?_, ?_⟩
  · rw [Option.getD_none, List.append_nil]
    exact fun hmem => hn.1 (hkeeps.newline hmem)
  · intro c hc
    cases hc

end SsaIr.Text
