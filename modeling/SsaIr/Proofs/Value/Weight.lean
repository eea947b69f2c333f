import Mathlib.Algebra.GroupWithZero.Nat
import SsaIr.Proofs.Value.Scope

/-!
# Values are written no longer than they were read

Blanks do not count here. A value can only get shorter, where a numeral loses leading zeros or
metadata loses a type in front of it. So a text is as long as what is written for it only if no
metadata in it was read behind a type.
-/

namespace SsaIr

namespace Text

variable {a b s out : List Char} {c : Char} {parts : List (List Char)}

/-- The number of characters that are no blanks. -/
def weight (s : List Char) : Nat := (squeeze s).length

theorem weight_append : weight (a ++ b) = weight a + weight b := by
  rw [weight, squeeze_append, List.length_append]
  rfl

theorem weight_cons (hc : isBlank c = false) : weight (c :: s) = weight s + 1 := by
  rw [weight, squeeze_cons_of_not_blank hc]
  rfl

theorem weight_cons_of_blank (hc : isBlank c = true) : weight (c :: s) = weight s := by
  rw [weight, squeeze_cons_of_blank hc]
  rfl

theorem weight_trim (s : List Char) : weight (trim s) = weight s := by
  rw [weight, squeeze_trim]
  rfl

theorem Blanks.weight_eq (h : Blanks s) : weight s = 0 := by
  rw [weight, h.squeeze_eq]
  rfl

theorem Unbroken.weight_eq (h : Unbroken s) : weight s = s.length := by
  rw [weight, h.squeeze_eq]

theorem Solid.weight_pos (h : Solid s) : 0 < weight s := List.length_pos_iff.2 h.squeeze_ne_nil

theorem weight_eq_of_words (h : words a = words b) : weight a = weight b := by
  rw [weight, weight, squeeze_eq_flatten_words, squeeze_eq_flatten_words, h]

theorem weight_flatMap_comma (p : List Char) (ps : List (List Char)) :
    weight (p ++ ps.flatMap (',' :: ·)) = ((p :: ps).map weight).sum + ps.length := by
  induction ps generalizing p with
  | nil => simp
  | cons q ps ih =>
      rw [List.flatMap_cons, List.cons_append, weight_append, weight_cons (by decide), ih q]
      simp only [List.map_cons, List.sum_cons, List.length_cons]
      omega

/-- A list weighs what its parts and the commas between them weigh. -/
theorem weight_of_splitTop? (h : splitTop? s = some parts) :
    weight s = (parts.map weight).sum + (parts.length - 1) := by
  rcases splitTop?_eq_some h with ⟨rfl, hs⟩ | ⟨p, ps, rfl, rfl, -⟩
  · exact hs.weight_eq
  · have htrim : weight ∘ trim = weight := funext weight_trim
    rw [weight_flatMap_comma, List.map_map, htrim, List.length_map]
    rfl

theorem weight_intercalate (parts : List (List Char)) :
    weight ([',', ' '].intercalate parts) = (parts.map weight).sum + (parts.length - 1) := by
  cases parts with
  | nil => rfl
  | cons p ps =>
      have hspace : weight ∘ (' ' :: ·) = weight := funext fun q => weight_cons_of_blank rfl
      rw [intercalate_comma, weight_flatMap_comma, List.map_cons, List.map_map, hspace,
        List.length_map]
      rfl

/-! ## Numerals -/

theorem ofDigitChars_lt (h : ∀ c ∈ s, c.isDigit = true) (n : Nat) :
    Nat.ofDigitChars 10 s n < (n + 1) * 10 ^ s.length := by
  induction s generalizing n with
  | nil => simp
  | cons c s ih =>
      obtain ⟨hc, hs⟩ := List.forall_mem_cons.1 h
      have hdigit : c.toNat - '0'.toNat ≤ 9 := by
        have hhigh := (Char.isDigit_iff_toNat.1 hc).2
        simpa using hhigh
      rw [Nat.ofDigitChars_cons, List.length_cons, Nat.pow_succ']
      calc
        Nat.ofDigitChars 10 s (10 * n + (c.toNat - '0'.toNat))
            < (10 * n + (c.toNat - '0'.toNat) + 1) * 10 ^ s.length := ih hs _
        _ ≤ ((n + 1) * 10) * 10 ^ s.length := Nat.mul_le_mul_right _ (by omega)
        _ = (n + 1) * (10 * 10 ^ s.length) := Nat.mul_assoc _ _ _

/-- No numeral is shorter than the one that is written. -/
theorem length_toString_le_of_nat? {n : Nat} (h : nat? s = some n) :
    (toString n).toList.length ≤ s.length := by
  unfold nat? at h
  split at h
  · cases h
  · next hempty =>
      split at h
      · next hdigits =>
          obtain rfl := Option.some.inj h
          have hs : 0 < s.length := List.length_pos_iff.2 fun hnil => hempty (by rw [hnil]; rfl)
          have hlt := ofDigitChars_lt (List.all_eq_true.1 hdigits) 0
          rw [Nat.zero_add, Nat.one_mul] at hlt
          rw [Nat.toString_eq_repr, Nat.toList_repr]
          exact (Nat.length_toDigits_le_iff (by decide) hs).2 hlt
      · cases h

theorem length_toString_neg_le (n : Nat) :
    (toString (-(n : Int))).toList.length ≤ (toString n).toList.length + 1 := by
  rw [Int.toString_eq_repr, Int.repr_eq_if, Nat.toString_eq_repr]
  split
  · next hn =>
      obtain rfl : n = 0 := by omega
      exact Nat.le_succ _
  · rw [Int.neg_neg, Int.toNat_natCast, String.toList_append, List.length_append, Nat.add_comm]
    exact Nat.le_refl _

theorem length_toString_le_of_int? {n : Int} (h : int? s = some n) :
    (toString n).toList.length ≤ s.length := by
  by_cases hs : s.head? = some '-'
  · cases s with
    | nil => cases hs
    | cons c s =>
        obtain rfl := Option.some.inj hs
        rw [int?_minus] at h
        obtain ⟨m, hm, rfl⟩ := Option.map_eq_some_iff.1 h
        calc
          (toString (-(m : Int))).toList.length ≤ (toString m).toList.length + 1 :=
            length_toString_neg_le m
          _ ≤ s.length + 1 := Nat.succ_le_succ (length_toString_le_of_nat? hm)
  · rw [int?_of_head hs] at h
    obtain ⟨m, hm, rfl⟩ := Option.map_eq_some_iff.1 h
    exact length_toString_le_of_nat? hm

theorem toInt_of_toInt64? {n : Int} {value : Int64} (h : toInt64? n = some value) :
    value.toInt = n := by
  unfold toInt64? at h
  split at h
  · next hrange =>
      obtain rfl := Option.some.inj h
      exact Int64.toInt_ofInt_of_le hrange.1 hrange.2
  · cases h

end Text

open Text

namespace Value

variable {scope : List String} {type : String} {s r inside : List Char} {v w : Value}
  {vs : List Value} {parts ws : List (List Char)}

/-- Brackets and quotes match in all metadata that operations in the value have as operands. -/
def HasBalancedTags (v : Value) : Prop :=
  ∀ opcode vs type tag, Occurs (.expr opcode vs type) v → .metadata tag ∈ vs → Balanced tag.toList

/-- Brackets and quotes match in all metadata, the value itself included. -/
def IsBalanced (v : Value) : Prop :=
  v.HasBalancedTags ∧ ∀ tag, v = .metadata tag → Balanced tag.toList

/-- In a value that is no operation there is none. -/
theorem not_occurs_expr (h : ∀ opcode vs type, v ≠ .expr opcode vs type) {opcode : String} :
    ¬Occurs (.expr opcode vs type) v := by
  intro hoccurs
  cases hoccurs with
  | here => exact h opcode vs type rfl
  | operand => exact h _ _ _ rfl

theorem hasBalancedTags_of_atom (h : ∀ opcode vs type, v ≠ .expr opcode vs type) :
    v.HasBalancedTags :=
  fun _ _ _ _ hoccurs _ => absurd hoccurs (not_occurs_expr h)

theorem hasBalancedTags_metadata (tag : String) : (metadata tag).HasBalancedTags :=
  hasBalancedTags_of_atom fun _ _ _ h => by cases h

theorem hasBalancedTags_of_spells (h : Spells scope type s (.value v)) : v.HasBalancedTags := by
  cases resolved_of_spells h with
  | argument => exact hasBalancedTags_of_atom fun _ _ _ h => by cases h
  | temp => exact hasBalancedTags_of_atom fun _ _ _ h => by cases h
  | other _ hexpr => exact hasBalancedTags_of_atom hexpr

theorem hasBalancedTags_expr {opcode : String} :
    (expr opcode vs type).HasBalancedTags ↔ ∀ v ∈ vs, v.IsBalanced := by
  constructor
  · intro h v hv
    refine ⟨fun _ _ _ _ hoccurs hmem => h _ _ _ _ (.operand hv hoccurs) hmem, ?_⟩
    rintro tag rfl
    exact h _ _ _ _ .here hv
  · intro h _ _ _ tag hoccurs hmem
    cases hoccurs with
    | here => exact (h _ hmem).2 tag rfl
    | operand hv hinside => exact (h _ hv).1 _ _ _ _ hinside hmem

/-! ## Numbers -/

theorem formOfSymbol_ne_int {value : Int64} {type' : String} :
    formOfSymbol scope s type ≠ .ok (.value (.int value type')) := by
  intro h
  unfold formOfSymbol at h
  split at h
  · split at h
    · have hvalue := Form.value.inj (Except.ok.inj h)
      unfold ofLocalName at hvalue
      split at hvalue
      · cases hvalue
      · split at hvalue <;> cases hvalue
    · cases h
  · split at h <;> cases h
  · cases h
  · split at h <;> cases h

/-- A number is written no longer than it was read. -/
theorem weight_int_le {value : Int64} {type' : String}
    (h : form scope s type = .ok (.value (.int value type'))) :
    weight (toString value.toInt).toList ≤ weight s := by
  rw [← weight_trim s]
  unfold form at h
  dsimp only at h
  split at h
  · cases h
  · split at h
    · cases h
    · split at h
      · next rest _ =>
          unfold parseLabel at h
          split at h <;> cases h
      · split at h
        · next htrue =>
            cases h
            rw [htrue]
            decide
        · split at h
          · next hfalse =>
              cases h
              rw [hfalse]
              decide
          · split at h
            · next n hint =>
                split at h
                · next hvalue =>
                    cases h
                    have hident := isIdentifier_of_int? hint
                    have hout := isIdentifier_of_int? (int?_toString value.toInt)
                    rw [(unbroken_of_isIdentifier hident).weight_eq,
                      (unbroken_of_isIdentifier hout).weight_eq, toInt_of_toInt64? hvalue]
                    exact length_toString_le_of_int? hint
                · cases h
            · exact absurd h formOfSymbol_ne_int

/-! ## What is written against what was read -/

/-- What is written for a value weighs no more than what it was read from, and as much only if no
metadata in it was cut loose from a type. -/
structure Lightens (s out : List Char) (v : Value) : Prop where
  le : weight out ≤ weight s
  tags : weight out = weight s → v.HasBalancedTags

/-- A value read from a text as one of the given type, written bare and behind its type. -/
structure LightensBoth (type : String) (s : List Char) (v : Value) : Prop where
  text : Lightens s v.text.toList v
  typed : v.isMetadata = false → Lightens (type.toList ++ s) v.typedText.toList v

theorem weight_typedText (h : v.isMetadata = false) :
    weight v.typedText.toList = weight v.type.toList + weight v.text.toList := by
  rw [typedText_eq h, weight_append, weight_cons_of_blank rfl]

theorem Lightens.both (h : Lightens s v.text.toList v)
    (htype : v.isMetadata = false → v.type = type) : LightensBoth type s v := by
  refine ⟨h, fun hmetadata => ?_⟩
  have hweight : weight (type.toList ++ s) = weight type.toList + weight s := weight_append
  have htyped := weight_typedText hmetadata
  have hle := h.le
  rw [htype hmetadata] at htyped
  exact ⟨by omega, fun hsame => h.tags (by omega)⟩

/-- A value that is written as it was read. -/
theorem lightens_of_eq (hspells : Spells scope type v.text.toList (.value v))
    (h : trim s = v.text.toList) : Lightens s v.text.toList v := by
  refine ⟨Nat.le_of_eq ?_, fun _ => hasBalancedTags_of_spells hspells⟩
  rw [← h, weight_trim]

theorem lightensBoth_label {n : String} (hspells : Spells scope type (trim s) (.value (label n)))
    (h : weight s = weight "label ".toList + weight (label n).text.toList) :
    LightensBoth type s (label n) := by
  have htype : weight (label n).type.toList = weight "label ".toList :=
    (by decide : weight TypeToken.label.toList = weight "label ".toList)
  have hweight : weight (type.toList ++ s) = weight type.toList + weight s := weight_append
  have htags := hasBalancedTags_of_spells hspells
  refine ⟨⟨by omega, fun _ => htags⟩, fun hmetadata => ⟨?_, fun _ => htags⟩⟩
  rw [weight_typedText hmetadata, htype]
  omega

theorem lightensBoth_of_form (h : form scope s type = .ok (.value v)) : LightensBoth type s v := by
  obtain ⟨-, hspells⟩ := spells_of_form h
  have hspells' := hspells
  generalize hf : Form.value v = f at hspells'
  generalize ht : trim s = t at hspells'
  cases hspells' with
  | metadata =>
      obtain rfl := Form.value.inj hf
      have htext : trim s = (metadata (String.ofList t)).text.toList := by
        rw [ht, text, String.toList_ofList]
      rw [htext] at hspells
      exact (lightens_of_eq hspells htext).both fun hfalse => by cases hfalse
  | @label rest n hname =>
      obtain rfl := Form.value.inj hf
      have hrest : trim rest = (label n).text.toList := by
        rw [text_label, (sigilName?_eq_some hname).1]
      apply lightensBoth_label hspells
      rw [← weight_trim, ht, weight_append, ← hrest, weight_trim]
  | int =>
      obtain rfl := Form.value.inj hf
      have hint : Lightens s (int _ type).text.toList (int _ type) :=
        ⟨weight_int_le h, fun _ => hasBalancedTags_of_spells hspells⟩
      exact hint.both fun _ => rfl
  | @localName n =>
      obtain rfl := Form.value.inj hf
      have htext : trim s = (ofLocalName scope n type).text.toList := by rw [ht, text_ofLocalName]
      rw [htext] at hspells
      exact (lightens_of_eq hspells htext).both fun _ => type_ofLocalName n
  | @global n =>
      obtain rfl := Form.value.inj hf
      have htext : trim s = (global n type).text.toList := by rw [ht, text_global]
      rw [htext] at hspells
      exact (lightens_of_eq hspells htext).both fun _ => rfl
  | data rest =>
      obtain rfl := Form.value.inj hf
      have htext : trim s = (data (String.ofList ('c' :: '"' :: rest)) type).text.toList := by
        rw [ht, text, String.toList_ofList]
      rw [htext] at hspells
      exact (lightens_of_eq hspells htext).both fun _ => rfl
  | expr => cases hf

/-! ## Typed operands and lists -/

/-- A typed operand that was read from a part of a list, written as one again. -/
structure LightensPart (s : List Char) (v : Value) : Prop where
  typed : Lightens s v.typedText.toList v
  tag : Piece s → weight v.typedText.toList = weight s → v.IsBalanced

theorem lightensPart_metadata (s : List Char) :
    LightensPart s (.metadata (String.ofList (trim s))) := by
  have htags := hasBalancedTags_metadata (String.ofList (trim s))
  refine ⟨⟨Nat.le_of_eq ?_, fun _ => htags⟩, fun hs _ => ⟨htags, ?_⟩⟩
  · rw [typedText, String.toList_ofList, weight_trim]
  · intro tag htag
    obtain rfl := Value.metadata.inj htag
    rw [String.toList_ofList]
    exact (piece_trim.2 hs).balanced

theorem lightensPart (h : parseTyped scope s = .ok v)
    (ih : ∀ r type, r.length ≤ s.length → parse scope r type = .ok v → LightensBoth type r v) :
    LightensPart s v := by
  unfold parseTyped at h
  split at h
  · cases h
  · next tag hform =>
      obtain rfl := Except.ok.inj h
      obtain ⟨-, rfl⟩ := typedForm_eq_metadata hform
      exact lightensPart_metadata s
  · next type r hform =>
      have hboth := ih r type (length_le_of_typedForm hform) h
      obtain ⟨-, htake⟩ := typedForm_eq_typed hform
      obtain ⟨gap, hgap, hsplit⟩ := TypeToken.exists_append_of_take htake
      have hweight : weight s = weight type.toList + weight r := by
        rw [← weight_trim, ← trimStart_trim, hsplit, weight_append, weight_append,
          Blanks.weight_eq hgap, Nat.add_zero]
      cases hmetadata : v.isMetadata with
      | true =>
          obtain ⟨tag, rfl⟩ := exists_eq_metadata hmetadata
          have htext : weight (metadata tag).typedText.toList ≤ weight r := hboth.text.le
          refine ⟨⟨by omega, fun _ => hasBalancedTags_metadata tag⟩, fun hs hsame => ?_⟩
          -- The type in front of the metadata weighs something, so the tag weighs less.
          have hne := TypeToken.ne_nil_of_piece htake (piece_trim.2 hs)
          have hpos := (TypeToken.isToken_of_take htake hne).solid.weight_pos
          omega
      | false =>
          have hsource : weight (type.toList ++ r) = weight s := weight_append.trans hweight.symm
          obtain ⟨hle, htags⟩ := hboth.typed hmetadata
          rw [hsource] at hle htags
          refine ⟨⟨hle, htags⟩, fun _ hsame => ⟨htags hsame, ?_⟩⟩
          rintro tag rfl
          cases hmetadata

/-- If each of the numbers is at most its partner, so is their sum, and the sums are the same only
if all are. -/
theorem sum_le_of_forall₂ {α β : Type} {f : α → Nat} {g : β → Nat} {as : List α} {bs : List β}
    (h : List.Forall₂ (fun a b => g b ≤ f a) as bs) :
    (bs.map g).sum ≤ (as.map f).sum ∧
      ((bs.map g).sum = (as.map f).sum → List.Forall₂ (fun a b => g b = f a) as bs) := by
  induction h with
  | nil => exact ⟨Nat.le_refl _, fun _ => .nil⟩
  | @cons a b as bs hle _ ih =>
      obtain ⟨hsum, hsame⟩ := ih
      simp only [List.map_cons, List.sum_cons]
      exact ⟨by omega, fun heq => .cons (by omega) (hsame (by omega))⟩

/-- The operands of a list weigh no more than the list they were read from. -/
theorem lightens_list (hs : splitTop? s = some parts)
    (h : List.Forall₂ (fun p v => Piece p ∧ LightensPart p v) parts vs) :
    weight (listText vs) ≤ weight s ∧
      (weight (listText vs) = weight s → ∀ v ∈ vs, v.IsBalanced) := by
  have hlength := h.length_eq
  have hsource := weight_of_splitTop? hs
  have hlist : weight (listText vs) =
      (vs.map fun v => weight v.typedText.toList).sum + (vs.length - 1) := by
    rw [listText, weight_intercalate, List.map_map, List.length_map]
    rfl
  obtain ⟨hle, hsame⟩ := sum_le_of_forall₂ (h.imp fun _ _ hpart => hpart.2.typed.le)
  refine ⟨by omega, fun hweight => ?_⟩
  have hequal := hsame (by omega)
  exact forall_mem_of_forall₂ (hequal.mp (fun _ _ heq hpart => hpart.2.tag hpart.1 heq) h)

theorem lightens_expr (h : constantExpression? s = some (ws, inside))
    (hle : weight (listText vs) ≤ weight inside)
    (htags : weight (listText vs) = weight inside → ∀ v ∈ vs, v.IsBalanced) :
    Lightens s (expr (" ".intercalate (ws.map String.ofList)) vs type).text.toList
      (expr (" ".intercalate (ws.map String.ofList)) vs type) := by
  obtain ⟨front, hsplit, -, -, -, hwords⟩ := constantExpression?_eq_some_iff.1 h
  have hwritten := writtenExpr h vs type
  have hfront : weight ([' '].intercalate ws ++ [' ']) = weight front :=
    weight_eq_of_words ((hwritten.words_front blanks_space).trans hwords.symm)
  have hparens : ∀ x, weight ('(' :: (x ++ [')'])) = weight x + 2 := by
    intro x
    rw [weight_cons (by decide), weight_append]
    rfl
  have hout : weight (expr (" ".intercalate (ws.map String.ofList)) vs type).text.toList =
      weight front + (weight (listText vs) + 2) := by
    rw [hwritten.text, weight_append, hfront, hparens]
  have hsource : weight s = weight front + (weight inside + 2) := by
    rw [hsplit, weight_append, hparens]
  exact ⟨by omega, fun hsame => hasBalancedTags_expr.2 (htags (by omega))⟩

theorem LightensBoth.of_trim (h : LightensBoth type (trim s) v) : LightensBoth type s v := by
  have hbare : weight (trim s) = weight s := weight_trim s
  have htyped : weight (type.toList ++ trim s) = weight (type.toList ++ s) := by
    rw [weight_append, weight_append, hbare]
  obtain ⟨⟨hle, htags⟩, h⟩ := h
  rw [hbare] at hle htags
  refine ⟨⟨hle, htags⟩, fun hmetadata => ?_⟩
  obtain ⟨hle, htags⟩ := h hmetadata
  rw [htyped] at hle htags
  exact ⟨hle, htags⟩

/-- What is written for a value is no longer than what it was read from. -/
theorem lightensBoth_of_parse (h : parse scope s type = .ok v) : LightensBoth type s v := by
  refine parse_induction (motive := fun s type v => LightensBoth type s v) ?bare ?operation h
  case bare => exact fun s type v hform => lightensBoth_of_form hform
  case operation =>
    intro s type ws inside vs hexpr hvs ih
    obtain ⟨parts, hparts, hvs⟩ := bind_eq_ok_iff.1 hvs
    have hs := splitOperands_eq_ok_iff.1 hparts
    have hoperands : List.Forall₂ (fun p v => Piece p ∧ LightensPart p v) parts vs := by
      refine forall₂_imp_of_mem (mapM_eq_ok_iff.1 hvs) fun p v hp _ hparse => ?_
      have hp_length := length_le_of_mem_splitTop? hs hp
      refine ⟨piece_of_mem_splitTop? hs hp, lightensPart hparse fun r type hr hread => ?_⟩
      exact ih r type v (Nat.le_trans hr hp_length) hread
    obtain ⟨hle, htags⟩ := lightens_list hs hoperands
    exact ((lightens_expr hexpr hle htags).both fun _ => rfl).of_trim

/-- A value that is read from its own text has balanced metadata. -/
theorem hasBalancedTags_of_parse_text (h : parse scope v.text.toList type = .ok v) :
    v.HasBalancedTags :=
  (lightensBoth_of_parse h).text.tags rfl

theorem hasBalancedTags_of_parse_typedText (h : parseTyped scope v.typedText.toList = .ok v) :
    v.HasBalancedTags :=
  (lightensPart h fun _ _ _ hparse => lightensBoth_of_parse hparse).typed.tags rfl

end Value

end SsaIr
