import SsaIr.NameSet

/-!
# Tables under names

A table keeps at most one value under each name and lists its entries in increasing order of their
names.
-/

namespace SsaIr

structure NameTable (α : Type) where
  entries : List (String × α)
  sorted : (entries.map Prod.fst).Pairwise Precedes
  deriving DecidableEq

namespace NameTable

variable {α : Type} {a : α} {x y : String} {entries : List (String × α)}

def empty : NameTable α := ⟨[], .nil⟩

instance : EmptyCollection (NameTable α) := ⟨empty⟩

instance : Inhabited (NameTable α) := ⟨empty⟩

def names (t : NameTable α) : NameSet := ⟨t.entries.map Prod.fst, t.sorted⟩

def size (t : NameTable α) : Nat := t.entries.length

def find? (t : NameTable α) (name : String) : Option α := t.entries.lookup name

@[simp] theorem find?_empty (name : String) : (∅ : NameTable α).find? name = none := rfl

theorem lookup_cons (entry : String × α) :
    (entry :: entries).lookup y = if y = entry.1 then some entry.2 else entries.lookup y := by
  rw [List.lookup_cons]
  by_cases hy : y = entry.1
  · simp [hy]
  · simp [hy, beq_eq_false_iff_ne.2 hy]

theorem mem_names {t : NameTable α} : x ∈ t.names ↔ (t.find? x).isSome = true := by
  change x ∈ t.entries.map Prod.fst ↔ (t.entries.lookup x).isSome = true
  induction t.entries with
  | nil => simp
  | cons entry entries ih =>
      rw [List.map_cons, List.mem_cons, ih, lookup_cons]
      by_cases hx : x = entry.1 <;> simp [hx]

theorem size_names (t : NameTable α) : t.names.size = t.size := by
  simp [names, NameSet.size, size]

/-- Insertion into an increasing list of entries. -/
def insertEntry (name : String) (a : α) : List (String × α) → List (String × α)
  | [] => [(name, a)]
  | (other, b) :: entries =>
    if name = other then (name, a) :: entries
    else if Precedes name other then (name, a) :: (other, b) :: entries
    else (other, b) :: insertEntry name a entries

theorem map_fst_insertEntry : (insertEntry x a entries).map Prod.fst =
    NameSet.insertSorted x (entries.map Prod.fst) := by
  induction entries with
  | nil => rfl
  | cons entry entries ih =>
      rw [insertEntry, List.map_cons, NameSet.insertSorted]
      by_cases hx : x = entry.1
      · simp [hx]
      · by_cases hlt : Precedes x entry.1
        · simp [hx, hlt]
        · simp [hx, hlt, ih]

theorem lookup_insertEntry : (insertEntry x a entries).lookup y =
    if y = x then some a else entries.lookup y := by
  induction entries with
  | nil => exact lookup_cons (x, a)
  | cons entry entries ih =>
      rw [insertEntry]
      by_cases hx : x = entry.1
      · rw [if_pos hx, lookup_cons, lookup_cons, ← hx]
        by_cases hy : y = x <;> simp [hy]
      · rw [if_neg hx]
        by_cases hlt : Precedes x entry.1
        · rw [if_pos hlt, lookup_cons]
        · rw [if_neg hlt, lookup_cons, ih, lookup_cons]
          by_cases hy : y = entry.1
          · simp [hy, Ne.symm hx]
          · simp [hy]

/-- Keep a value under a name, in the place of one that is there. -/
def insert (t : NameTable α) (name : String) (a : α) : NameTable α where
  entries := insertEntry name a t.entries
  sorted := by
    rw [map_fst_insertEntry]
    exact NameSet.sorted_insertSorted t.sorted

theorem find?_insert (t : NameTable α) :
    (t.insert x a).find? y = if y = x then some a else t.find? y :=
  lookup_insertEntry

def erase (t : NameTable α) (name : String) : NameTable α where
  entries := t.entries.filter (·.1 ≠ name)
  sorted := t.sorted.sublist (List.filter_sublist.map Prod.fst)

theorem find?_erase (t : NameTable α) :
    (t.erase x).find? y = if y = x then none else t.find? y := by
  change (t.entries.filter (·.1 ≠ x)).lookup y = if y = x then none else t.entries.lookup y
  induction t.entries with
  | nil => simp
  | cons entry entries ih =>
      rw [lookup_cons]
      by_cases hx : entry.1 = x
      · rw [List.filter_cons_of_neg (by simpa using hx), ih, hx]
        by_cases hy : y = x <;> simp [hy]
      · rw [List.filter_cons_of_pos (by simpa using hx), lookup_cons, ih]
        by_cases hy : y = entry.1
        · simp [hy, hx]
        · simp [hy]

theorem size_erase_lt {t : NameTable α} (h : x ∈ t.names) : (t.erase x).size < t.size := by
  obtain ⟨entry, hentry, hx⟩ := List.mem_map.1 h
  exact List.length_filter_lt_length_iff_exists.2 ⟨entry, hentry, by simp [hx]⟩

end NameTable

end SsaIr
