/-!
# Sets of names

Names are ordered by code point at the first difference, a proper beginning first. A set of
names is its strictly increasing list, so that sets with the same members are equal and every
listing of a set is sorted.
-/

namespace SsaIr

/-- Whether one text comes before another in code point order. -/
def charsPrecede : List Char → List Char → Bool
  | [], [] => false
  | [], _ :: _ => true
  | _ :: _, [] => false
  | c :: cs, d :: ds => c.toNat < d.toNat || (c.toNat == d.toNat && charsPrecede cs ds)

theorem charsPrecede_irrefl (s : List Char) : charsPrecede s s = false := by
  induction s with
  | nil => rfl
  | cons c cs ih => simp [charsPrecede, ih]

theorem charsPrecede_trans {s t u : List Char} (h : charsPrecede s t = true)
    (k : charsPrecede t u = true) : charsPrecede s u = true := by
  induction s generalizing t u with
  | nil => cases t <;> cases u <;> simp_all [charsPrecede]
  | cons c cs ih =>
      cases t with
      | nil => simp [charsPrecede] at h
      | cons d ds =>
          cases u with
          | nil => simp [charsPrecede] at k
          | cons e es =>
              simp only [charsPrecede, Bool.or_eq_true, decide_eq_true_eq, Bool.and_eq_true,
                beq_iff_eq] at h k ⊢
              rcases h with h | ⟨h, h'⟩ <;> rcases k with k | ⟨k, k'⟩
              · exact .inl (by omega)
              · exact .inl (by omega)
              · exact .inl (by omega)
              · exact .inr ⟨by omega, ih h' k'⟩

theorem charsPrecede_total {s t : List Char} (h : s ≠ t) (k : charsPrecede s t = false) :
    charsPrecede t s = true := by
  induction s generalizing t with
  | nil => cases t <;> simp_all [charsPrecede]
  | cons c cs ih =>
      cases t with
      | nil => simp [charsPrecede]
      | cons d ds =>
          simp only [charsPrecede, Bool.or_eq_false_iff, decide_eq_false_iff_not,
            Bool.and_eq_false_iff, Bool.or_eq_true, decide_eq_true_eq, Bool.and_eq_true,
            beq_iff_eq] at k ⊢
          by_cases hcd : c.toNat = d.toNat
          · have hc : c = d := Char.toNat_inj.1 hcd
            subst hc
            refine .inr ⟨rfl, ih (fun hs => h (by rw [hs])) ?_⟩
            simpa using k.2
          · exact .inl (by omega)

/-- Whether one name comes before another in code point order. -/
def Precedes (a b : String) : Prop := charsPrecede a.toList b.toList = true

instance (a b : String) : Decidable (Precedes a b) :=
  inferInstanceAs (Decidable (charsPrecede a.toList b.toList = true))

theorem Precedes.irrefl (a : String) : ¬Precedes a a := by
  simp [Precedes, charsPrecede_irrefl]

theorem Precedes.trans {a b c : String} (h : Precedes a b) (k : Precedes b c) : Precedes a c :=
  charsPrecede_trans h k

theorem Precedes.total {a b : String} (h : a ≠ b) (k : ¬Precedes a b) : Precedes b a :=
  charsPrecede_total (fun hl => h (String.toList_inj.1 hl)) (by simpa [Precedes] using k)

/-- A finite set of names, listed in increasing order. -/
structure NameSet where
  toList : List String
  sorted : toList.Pairwise Precedes
  deriving DecidableEq

namespace NameSet

instance : Membership String NameSet := ⟨fun s a => a ∈ s.toList⟩

instance (a : String) (s : NameSet) : Decidable (a ∈ s) :=
  inferInstanceAs (Decidable (a ∈ s.toList))

theorem mem_toList {s : NameSet} {a : String} : a ∈ s.toList ↔ a ∈ s := Iff.rfl

def empty : NameSet := ⟨[], .nil⟩

instance : Inhabited NameSet := ⟨empty⟩

instance : EmptyCollection NameSet := ⟨empty⟩

@[simp] theorem not_mem_empty (a : String) : a ∉ (∅ : NameSet) := List.not_mem_nil

/-- Insertion into an increasing list. -/
def insertSorted (a : String) : List String → List String
  | [] => [a]
  | b :: bs =>
    if a = b then b :: bs
    else if Precedes a b then a :: b :: bs
    else b :: insertSorted a bs

theorem mem_insertSorted {a x : String} {bs : List String} :
    x ∈ insertSorted a bs ↔ x = a ∨ x ∈ bs := by
  induction bs with
  | nil => simp [insertSorted]
  | cons b bs ih =>
      simp only [insertSorted]
      split
      · next h => subst h; simp
      · split
        · simp
        · simp only [List.mem_cons, ih]
          exact or_left_comm

theorem sorted_insertSorted {a : String} {bs : List String} (h : bs.Pairwise Precedes) :
    (insertSorted a bs).Pairwise Precedes := by
  induction bs with
  | nil => simp [insertSorted]
  | cons b bs ih =>
      simp only [insertSorted]
      obtain ⟨hb, hbs⟩ := List.pairwise_cons.1 h
      split
      · exact h
      · next hab =>
          split
          · next hlt =>
              refine List.pairwise_cons.2 ⟨fun x hx => ?_, h⟩
              rcases List.mem_cons.1 hx with rfl | hx
              · exact hlt
              · exact hlt.trans (hb x hx)
          · next hlt =>
              refine List.pairwise_cons.2 ⟨fun x hx => ?_, ih hbs⟩
              rcases mem_insertSorted.1 hx with rfl | hx
              · exact Precedes.total hab hlt
              · exact hb x hx

def insert (a : String) (s : NameSet) : NameSet :=
  ⟨insertSorted a s.toList, sorted_insertSorted s.sorted⟩

@[simp] theorem mem_insert {a x : String} {s : NameSet} : x ∈ s.insert a ↔ x = a ∨ x ∈ s :=
  mem_insertSorted

/-- The set of the names in a list. -/
def ofList (names : List String) : NameSet := names.foldr insert ∅

@[simp] theorem mem_ofList {x : String} {names : List String} :
    x ∈ ofList names ↔ x ∈ names := by
  induction names with
  | nil => simp [ofList]
  | cons a names ih =>
      rw [ofList, List.foldr_cons, mem_insert, List.mem_cons, ← ih]
      rfl

def union (s t : NameSet) : NameSet := s.toList.foldr insert t

instance : Union NameSet := ⟨union⟩

@[simp] theorem mem_union {x : String} {s t : NameSet} : x ∈ s ∪ t ↔ x ∈ s ∨ x ∈ t := by
  show x ∈ s.toList.foldr insert t ↔ x ∈ s.toList ∨ x ∈ t
  induction s.toList with
  | nil => simp
  | cons a names ih => simp [ih, or_assoc]

def filter (p : String → Bool) (s : NameSet) : NameSet :=
  ⟨s.toList.filter p, s.sorted.filter p⟩

@[simp] theorem mem_filter {x : String} {p : String → Bool} {s : NameSet} :
    x ∈ s.filter p ↔ x ∈ s ∧ p x = true := List.mem_filter

def erase (a : String) (s : NameSet) : NameSet := s.filter (· ≠ a)

@[simp] theorem mem_erase {a x : String} {s : NameSet} : x ∈ s.erase a ↔ x ∈ s ∧ x ≠ a := by
  simp [erase]

def size (s : NameSet) : Nat := s.toList.length

@[simp] theorem size_empty : (∅ : NameSet).size = 0 := rfl

instance : HasSubset NameSet := ⟨fun s t => ∀ x, x ∈ s → x ∈ t⟩

theorem subset_refl (s : NameSet) : s ⊆ s := fun _ h => h

theorem subset_trans {s t u : NameSet} (h : s ⊆ t) (k : t ⊆ u) : s ⊆ u :=
  fun x hx => k x (h x hx)

theorem nodup_toList (s : NameSet) : s.toList.Nodup := by
  refine List.Pairwise.imp ?_ s.sorted
  rintro a b h rfl
  exact Precedes.irrefl a h

theorem size_le_of_subset {s t : NameSet} (h : s ⊆ t) : s.size ≤ t.size :=
  s.nodup_toList.length_le_of_subset fun x hx => h x hx

/-- A proper subset is smaller. -/
theorem size_lt_of_subset_of_mem {s t : NameSet} {a : String} (h : s ⊆ t) (ht : a ∈ t)
    (hs : a ∉ s) : s.size < t.size := by
  have hnodup : (a :: s.toList).Nodup := List.nodup_cons.2 ⟨hs, s.nodup_toList⟩
  have hsub : a :: s.toList ⊆ t.toList := by
    intro x hx
    rcases List.mem_cons.1 hx with rfl | hx
    · exact ht
    · exact h x hx
  exact hnodup.length_le_of_subset hsub

/-- Increasing lists with the same members are equal. -/
theorem eq_of_sorted_of_mem_iff {as bs : List String} (ha : as.Pairwise Precedes)
    (hb : bs.Pairwise Precedes) (h : ∀ x, x ∈ as ↔ x ∈ bs) : as = bs := by
  induction as generalizing bs with
  | nil =>
      cases bs with
      | nil => rfl
      | cons b bs => exact absurd ((h b).2 (by simp)) (by simp)
  | cons a as ih =>
      cases bs with
      | nil => exact absurd ((h a).1 (by simp)) (by simp)
      | cons b bs =>
          obtain ⟨ha₁, ha₂⟩ := List.pairwise_cons.1 ha
          obtain ⟨hb₁, hb₂⟩ := List.pairwise_cons.1 hb
          have hab : a = b := by
            rcases List.mem_cons.1 ((h a).1 (by simp)) with e | e
            · exact e
            · rcases List.mem_cons.1 ((h b).2 (by simp)) with e' | e'
              · exact e'.symm
              · exact absurd ((ha₁ b e').trans (hb₁ a e)) (Precedes.irrefl a)
          subst hab
          congr 1
          refine ih ha₂ hb₂ fun x => ?_
          constructor
          · intro hx
            rcases List.mem_cons.1 ((h x).1 (by simp [hx])) with rfl | e
            · exact absurd (ha₁ x hx) (Precedes.irrefl x)
            · exact e
          · intro hx
            rcases List.mem_cons.1 ((h x).2 (by simp [hx])) with rfl | e
            · exact absurd (hb₁ x hx) (Precedes.irrefl x)
            · exact e

theorem ext {s t : NameSet} (h : ∀ x, x ∈ s ↔ x ∈ t) : s = t := by
  cases s with
  | mk as ha =>
      cases t with
      | mk bs hb =>
          have : as = bs := eq_of_sorted_of_mem_iff ha hb h
          subst this
          rfl

theorem eq_of_subset_of_subset {s t : NameSet} (h : s ⊆ t) (k : t ⊆ s) : s = t :=
  ext fun x => ⟨h x, k x⟩

/-- A subset that is not the whole set is smaller. -/
theorem size_lt_of_subset_of_ne {s t : NameSet} (h : s ⊆ t) (hne : s ≠ t) :
    s.size < t.size := by
  apply Nat.lt_of_not_le
  intro hle
  apply hne
  apply eq_of_subset_of_subset h
  intro a ha
  apply Decidable.byContradiction
  intro hs
  have hlt := size_lt_of_subset_of_mem h ha hs
  omega

end NameSet

end SsaIr
