import SsaIr.Interference

/-!
# Colouring

Dropping names one by one lists every name of the graph once, and colouring them in the opposite
order gives each a colour that no coloured neighbour has. Where interference is symmetric, names
that interfere end up with different colours.
-/

namespace SsaIr

theorem lookup_map_key {β : Type} {names : List String} {value : String → β} {x : String}
    (h : x ∈ names) : (names.map fun name => (name, value name)).lookup x = some (value x) := by
  induction names with
  | nil => simp at h
  | cons a names ih =>
      rw [List.map_cons, List.lookup_cons]
      by_cases hx : x = a
      · rw [hx, beq_self_eq_true]
      · rw [beq_false_of_ne hx]
        exact ih (List.mem_of_ne_of_mem hx h)

namespace InterferenceGraph

variable {g : InterferenceGraph} {k : Nat} {order : List String} {a b x y : String}

theorem mem_names_remove : x ∈ (g.remove a).names ↔ x ∈ g.names ∧ x ≠ a := NameSet.mem_erase

theorem mem_neighbors_iff : y ∈ g.neighbors x ↔
    x ∈ g.names ∧ y ∈ g.names ∧ y ∈ (g.adjacency.lookup x).getD ∅ := by
  unfold neighbors
  by_cases hx : x ∈ g.names
  · simp [hx, and_comm]
  · simp [hx]

/-- Simplification that does not get stuck drops every name. -/
theorem mem_simplificationOrder (h : g.simplificationOrder? k = some order) :
    x ∈ order ↔ x ∈ g.names := by
  fun_induction simplificationOrder? k g generalizing order with
  | case1 g name hname ih =>
      obtain ⟨rest, hrest, rfl⟩ := Option.map_eq_some_iff.1 h
      have hmem : name ∈ g.names := List.mem_of_find?_eq_some hname
      rw [List.mem_cons, ih hrest, mem_names_remove]
      constructor
      · rintro (rfl | ⟨hx, -⟩)
        · exact hmem
        · exact hx
      · intro hx
        by_cases hxn : x = name
        · exact .inl hxn
        · exact .inr ⟨hx, hxn⟩
  | case2 g _ hempty =>
      cases h
      simp [hempty]
  | case3 g _ _ => cases h

/-- No two names that interfere have the same colour. -/
def Proper (g : InterferenceGraph) (colors : List (String × Nat)) : Prop :=
  ∀ a b c, g.interferes a b = true → colors.lookup a = some c → colors.lookup b ≠ some c

variable {colors : List (String × Nat)}

theorem lookup_assign_self (g : InterferenceGraph) (a : String) (colors : List (String × Nat)) :
    ∃ c, (g.assign a colors).lookup a = some c ∧
      ∀ b, g.interferes a b = true → colors.lookup b ≠ some c := by
  refine ⟨_, List.lookup_cons_self, ?_⟩
  intro b hb hc
  apply lowestFree_not_mem ((g.neighbors a).toList.filterMap (colors.lookup ·))
  rw [List.mem_filterMap]
  exact ⟨b, NameSet.mem_toList.2 (of_decide_eq_true hb), hc⟩

theorem lookup_assign_of_ne (h : b ≠ a) : (g.assign a colors).lookup b = colors.lookup b := by
  rw [assign, List.lookup_cons, beq_false_of_ne h]

/-- Giving a name a colour keeps a colouring proper. -/
theorem Proper.assign (hcomm : ∀ a b, g.interferes a b = g.interferes b a)
    (hself : ∀ a, g.interferes a a = false) (h : g.Proper colors) (name : String) :
    g.Proper (g.assign name colors) := by
  obtain ⟨c, hname, hfresh⟩ := lookup_assign_self g name colors
  intro a b d hab ha hb
  by_cases han : a = name
  · subst han
    have hba : b ≠ a := by
      rintro rfl
      rw [hself] at hab
      cases hab
    rw [hname] at ha
    rw [lookup_assign_of_ne hba] at hb
    cases ha
    exact hfresh b hab hb
  · rw [lookup_assign_of_ne han] at ha
    by_cases hbn : b = name
    · subst hbn
      rw [hname] at hb
      cases hb
      rw [hcomm] at hab
      exact hfresh a hab ha
    · rw [lookup_assign_of_ne hbn] at hb
      exact h a b d hab ha hb

theorem Proper.foldr_assign (hcomm : ∀ a b, g.interferes a b = g.interferes b a)
    (hself : ∀ a, g.interferes a a = false) (order : List String) :
    g.Proper (order.foldr g.assign []) := by
  induction order with
  | nil =>
      intro a b c _ ha
      simp at ha
  | cons name order ih => exact ih.assign hcomm hself name

theorem isSome_lookup_foldr_assign (h : x ∈ order) :
    ((order.foldr g.assign []).lookup x).isSome := by
  induction order with
  | nil => simp at h
  | cons name order ih =>
      rw [List.foldr_cons]
      by_cases hx : x = name
      · subst hx
        obtain ⟨c, hc, -⟩ := lookup_assign_self g x (order.foldr g.assign [])
        rw [hc]
        rfl
      · rw [lookup_assign_of_ne hx]
        exact ih (List.mem_of_ne_of_mem hx h)

theorem lookup_filterMap_key {names : List String} (h : x ∈ names) :
    (names.filterMap fun name => (colors.lookup name).map fun c => (name, c)).lookup x =
      colors.lookup x := by
  induction names with
  | nil => simp at h
  | cons a names ih =>
      by_cases hx : x = a
      · subst hx
        cases hc : colors.lookup x with
        | none =>
            rw [List.lookup_eq_none_iff]
            intro row hrow
            obtain ⟨name, -, hname⟩ := List.mem_filterMap.1 hrow
            obtain ⟨c, hlookup, rfl⟩ := Option.map_eq_some_iff.1 hname
            rw [bne_iff_ne]
            rintro rfl
            rw [hc] at hlookup
            cases hlookup
        | some c => rw [List.filterMap_cons_some (by rw [hc]; rfl), List.lookup_cons_self]
      · have hrest := ih (List.mem_of_ne_of_mem hx h)
        cases hc : colors.lookup a with
        | none => rw [List.filterMap_cons_none (by rw [hc]; rfl), hrest]
        | some c =>
            rw [List.filterMap_cons_some (by rw [hc]; rfl), List.lookup_cons,
              beq_false_of_ne hx, hrest]

/-- A successful colouring gives names that interfere different colours. -/
theorem exists_colors_of_interferes (hcomm : ∀ a b, g.interferes a b = g.interferes b a)
    (hself : ∀ a, g.interferes a a = false) (h : g.color? k = some colors)
    (hxy : g.interferes x y = true) :
    ∃ a b, colors.lookup x = some a ∧ colors.lookup y = some b ∧ a ≠ b := by
  obtain ⟨order, horder, rfl⟩ := Option.map_eq_some_iff.1 h
  have hcolor : ∀ z ∈ g.names, ∃ c, (order.foldr g.assign []).lookup z = some c := by
    intro z hz
    apply Option.isSome_iff_exists.1
    exact isSome_lookup_foldr_assign ((mem_simplificationOrder horder).2 hz)
  obtain ⟨hx, hy, -⟩ := mem_neighbors_iff.1 (of_decide_eq_true hxy)
  obtain ⟨a, ha⟩ := hcolor x hx
  obtain ⟨b, hb⟩ := hcolor y hy
  rw [lookup_filterMap_key hx, lookup_filterMap_key hy]
  refine ⟨a, b, ha, hb, ?_⟩
  rintro rfl
  exact Proper.foldr_assign hcomm hself order x y a hxy ha hb

end InterferenceGraph

end SsaIr
