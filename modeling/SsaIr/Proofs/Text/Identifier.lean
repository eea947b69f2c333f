import SsaIr.Proofs.Text.Line
import SsaIr.Text.Decimal
import SsaIr.Text.Identifier

/-!
# Identifiers and numerals

An identifier has none of the characters that structure a line, and a numeral is an identifier.
The numerals that are written are read back as the numbers they stand for.
-/

namespace SsaIr.Text

open Nesting

variable {c : Char} {s t name : List Char}

theorem mem_of_isIdentifier (h : isIdentifier s = true) (hc : c ∈ s) :
    isIdentifierChar c = true :=
  List.all_eq_true.1 (Bool.and_eq_true_iff.1 h).2 c hc

theorem not_mem_of_isIdentifier (h : isIdentifier s = true) (hc : isIdentifierChar c = false) :
    c ∉ s := by
  intro hs
  rw [mem_of_isIdentifier h hs] at hc
  cases hc

theorem ne_nil_of_isIdentifier (h : isIdentifier s = true) : s ≠ [] := by
  rintro rfl
  cases h

theorem isAlphanum_of_isLower (h : c.isLower = true) : c.isAlphanum = true := by
  change (c.isUpper || c.isLower || c.isDigit) = true
  rw [h, Bool.or_true, Bool.true_or]

theorem isAlphanum_of_isDigit (h : c.isDigit = true) : c.isAlphanum = true := by
  change (c.isUpper || c.isLower || c.isDigit) = true
  rw [h, Bool.or_true]

theorem isBlank_of_isAlphanum (h : c.isAlphanum = true) : isBlank c = false := by
  rw [Bool.eq_false_iff]
  intro hb
  change (decide (c.val ≥ 'A'.val ∧ c.val ≤ 'Z'.val) ||
    (decide (c.val ≥ 'a'.val) && decide (c.val ≤ 'z'.val)) ||
    (decide (c.val ≥ '0'.val) && decide (c.val ≤ '9'.val))) = true at h
  simp only [Bool.or_eq_true, Bool.and_eq_true, decide_eq_true_eq, ge_iff_le,
    UInt32.le_iff_toNat_le, Char.reduceVal, UInt32.reduceToNat] at h
  simp only [isBlank, Char.toNat, Bool.or_eq_true, Bool.and_eq_true, decide_eq_true_eq,
    beq_iff_eq] at hb
  omega

theorem isBlank_of_isIdentifierChar (h : isIdentifierChar c = true) : isBlank c = false := by
  simp only [isIdentifierChar, Bool.or_eq_true, beq_iff_eq] at h
  rcases h with (((h | rfl) | rfl) | rfl) | rfl
  · exact isBlank_of_isAlphanum h
  all_goals rfl

theorem neutral_of_isIdentifierChar (h : isIdentifierChar c = true) : Neutral c := by
  have hne : ∀ d, isIdentifierChar d = false → c ≠ d := by
    rintro d hd rfl
    rw [h] at hd
    cases hd
  refine ⟨hne _ rfl, ?_, ?_⟩
  · simp [isOpening, hne '(' rfl, hne '[' rfl, hne '\x7b' rfl, hne '<' rfl]
  · simp [isClosing, hne ')' rfl, hne ']' rfl, hne '\x7d' rfl, hne '>' rfl]

theorem unbroken_of_isIdentifier (h : isIdentifier s = true) : Unbroken s := fun _ hc =>
  isBlank_of_isIdentifierChar (mem_of_isIdentifier h hc)

theorem piece_of_isIdentifier (h : isIdentifier s = true) : Piece s := by
  apply piece_of_neutral
  intro c hc
  refine ⟨neutral_of_isIdentifierChar (mem_of_isIdentifier h hc), ?_⟩
  rintro rfl
  exact not_mem_of_isIdentifier h rfl hc

theorem plain_of_isIdentifier (h : isIdentifier s = true) : Plain s := by
  intro c hc
  refine ⟨?_, ?_, ?_⟩ <;>
  · rintro rfl
    exact not_mem_of_isIdentifier h rfl hc

theorem Plain.not_mem_quote (h : Plain s) : '"' ∉ s := fun hs => (h '"' hs).1 rfl

theorem sigilName?_eq_some {n : String} (h : sigilName? c s = some n) :
    s = c :: n.toList ∧ isIdentifier n.toList = true := by
  cases s with
  | nil => cases h
  | cons d s =>
      rw [sigilName?, Option.ite_none_right_eq_some] at h
      obtain ⟨⟨rfl, hs⟩, hn⟩ := h
      obtain rfl := Option.some.inj hn
      rw [String.toList_ofList]
      exact ⟨rfl, hs⟩

theorem sigilName?_cons {n : String} (h : isIdentifier n.toList = true) :
    sigilName? c (c :: n.toList) = some n := by
  rw [sigilName?, if_pos ⟨rfl, h⟩, String.ofList_toList]

/-! ## Numerals -/

theorem isIdentifierChar_of_isDigit (h : c.isDigit = true) : isIdentifierChar c = true := by
  simp [isIdentifierChar, isAlphanum_of_isDigit h]

theorem isIdentifier_of_isNumeric (h : isNumeric s = true) : isIdentifier s = true := by
  rw [isNumeric, Bool.and_eq_true, List.all_eq_true] at h
  rw [isIdentifier, Bool.and_eq_true, List.all_eq_true]
  exact ⟨h.1, fun c hc => isIdentifierChar_of_isDigit (h.2 c hc)⟩

theorem isNumeric_of_nat? {n : Nat} (h : nat? s = some n) : isNumeric s = true := by
  rw [nat?] at h
  split at h
  · cases h
  · next hne =>
      split at h
      · next hdigits => rw [isNumeric, hdigits, Bool.eq_false_iff.2 hne]; rfl
      · cases h

theorem int?_minus (s : List Char) : int? ('-' :: s) = (nat? s).map fun n : Nat => -(n : Int) := by
  simp only [int?]
  cases nat? s <;> rfl

theorem int?_of_head (h : s.head? ≠ some '-') : int? s = (nat? s).map fun n : Nat => (n : Int) := by
  unfold int?
  split
  · exact absurd rfl h
  · cases nat? s <;> rfl

theorem isIdentifier_of_int? {n : Int} (h : int? s = some n) : isIdentifier s = true := by
  by_cases hs : s.head? = some '-'
  · cases s with
    | nil => cases hs
    | cons c s =>
        obtain rfl := Option.some.inj hs
        rw [int?_minus] at h
        obtain ⟨m, hm, -⟩ := Option.map_eq_some_iff.1 h
        have hident := isIdentifier_of_isNumeric (isNumeric_of_nat? hm)
        rw [isIdentifier, Bool.and_eq_true] at hident ⊢
        rw [List.all_cons, hident.2]
        exact ⟨rfl, rfl⟩
  · rw [int?_of_head hs] at h
    obtain ⟨m, hm, -⟩ := Option.map_eq_some_iff.1 h
    exact isIdentifier_of_isNumeric (isNumeric_of_nat? hm)

theorem isNumeric_toString (n : Nat) : isNumeric (toString n).toList = true := by
  rw [Nat.toString_eq_repr, Nat.toList_repr, isNumeric, Bool.and_eq_true, List.all_eq_true]
  refine ⟨?_, fun c hc => Nat.isDigit_of_mem_toDigits (by decide) (by decide) hc⟩
  rw [Bool.not_eq_true', List.isEmpty_eq_false_iff]
  exact Nat.toDigits_ne_nil

theorem nat?_toString (n : Nat) : nat? (toString n).toList = some n := by
  have hnumeric := isNumeric_toString n
  rw [isNumeric, Bool.and_eq_true, Bool.not_eq_true'] at hnumeric
  rw [nat?, hnumeric.1, if_neg Bool.false_ne_true, if_pos hnumeric.2, Nat.toString_eq_repr,
    Nat.toList_repr, Nat.ofDigitChars_ten_toDigits]

theorem head?_ne_of_isNumeric (h : isNumeric s = true) (hc : c.isDigit = false) :
    s.head? ≠ some c := by
  intro hs
  rw [isNumeric, Bool.and_eq_true, List.all_eq_true] at h
  rw [h.2 c (List.mem_of_mem_head? hs)] at hc
  cases hc

theorem int?_toString (n : Int) : int? (toString n).toList = some n := by
  rw [Int.toString_eq_repr, Int.repr_eq_if]
  split
  · next hn =>
      rw [← Nat.toString_eq_repr, int?_of_head (head?_ne_of_isNumeric (isNumeric_toString _) rfl),
        nat?_toString, Option.map_some, Int.toNat_of_nonneg hn]
  · next hn =>
      have hminus : ("-" ++ toString (-n).toNat).toList = '-' :: (toString (-n).toNat).toList := by
        rw [String.toList_append]
        rfl
      rw [← Nat.toString_eq_repr, hminus, int?_minus, nat?_toString, Option.map_some,
        Int.toNat_of_nonneg (by omega), Int.neg_neg]

theorem toInt64?_toInt (n : Int64) : toInt64? n.toInt = some n := by
  have hlow := n.le_toInt
  have hhigh := n.toInt_lt
  rw [toInt64?, if_pos ⟨hlow, hhigh⟩, Int64.ofInt_toInt]

theorem uint32?_toString (n : UInt32) : uint32? (toString n.toNat).toList = some n := by
  have hsign : natBelow? 0x100000000 (toString n.toNat).toList =
      (nat? (toString n.toNat).toList).filter (· < 0x100000000) := by
    unfold natBelow?
    split
    · next s hs =>
        have hplus := head?_ne_of_isNumeric (c := '+') (isNumeric_toString n.toNat) rfl
        rw [hs] at hplus
        exact absurd rfl hplus
    · rfl
  rw [uint32?, hsign, nat?_toString, Option.filter_some, if_pos (by simpa using n.toNat_lt),
    Option.map_some, UInt32.ofNat_toNat]

/-- The numeral of an alignment has no quotes. -/
theorem not_mem_quote_of_uint32? {n : UInt32} (h : uint32? s = some n) : '"' ∉ s := by
  have hdigits : ∀ t, nat? t = none ∨ '"' ∉ t := by
    intro t
    cases ht : nat? t with
    | none => exact .inl rfl
    | some m =>
        have hident := isIdentifier_of_isNumeric (isNumeric_of_nat? ht)
        exact .inr (plain_of_isIdentifier hident).not_mem_quote
  obtain ⟨m, hm, -⟩ := Option.map_eq_some_iff.1 h
  unfold natBelow? at hm
  split at hm
  · next t =>
      rcases hdigits t with hnone | ht
      · simp [hnone] at hm
      · simpa using ht
  · rcases hdigits s with hnone | hs
    · simp [hnone] at hm
    · exact hs

end SsaIr.Text
