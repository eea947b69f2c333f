import SsaIr.Proofs.Function.BodyLine

/-!
# Reading line after line

Reading succeeds exactly if every line does, and lines that were read in one order are read again
one list after the other.
-/

namespace SsaIr

open Text

namespace Module.Reader

variable {r r' r'' : Reader} {file : String} {n n' : Nat} {ls ls' : List String} {l : String}

/-- Taking in the lines one after another leads from one state to the other. -/
inductive Reads : Reader → List String → Reader → Prop
  | nil {r : Reader} : Reads r [] r
  | cons {r r' r'' : Reader} {l : String} {ls : List String} (hstep : r.step l.toList = .ok r')
      (hrest : Reads r' ls r'') : Reads r (l :: ls) r''

theorem Reads.append (h : Reads r ls r') (h' : Reads r' ls' r'') : Reads r (ls ++ ls') r'' := by
  induction h with
  | nil => exact h'
  | cons hstep _ ih => exact .cons hstep (ih h')

theorem Reads.singleton (h : r.step l.toList = .ok r') : Reads r [l] r' := .cons h .nil

theorem run_eq_ok_iff : run file r n ls = .ok (r', n') ↔ Reads r ls r' ∧ n' = n + ls.length := by
  induction ls generalizing r n with
  | nil =>
      rw [run]
      constructor
      · intro h
        obtain ⟨rfl, rfl⟩ := Prod.mk.inj (Except.ok.inj h)
        exact ⟨.nil, rfl⟩
      · rintro ⟨⟨⟩, rfl⟩
        rfl
  | cons l ls ih =>
      rw [run]
      cases hstep : r.step l.toList with
      | error cause =>
          refine iff_of_false (fun h => by cases h) ?_
          rintro ⟨hreads, -⟩
          cases hreads with
          | cons hok _ => cases hstep.symm.trans hok
      | ok r₁ =>
          dsimp only
          rw [ih, List.length_cons, Nat.add_assoc, Nat.add_comm 1]
          refine and_congr_left fun _ => ⟨.cons hstep, ?_⟩
          intro hreads
          cases hreads with
          | cons hok hrest =>
              cases hstep.symm.trans hok
              exact hrest

/-- A module is read from lines that end outside any function. -/
theorem parseLines_eq_ok_iff {m : Module} :
    parseLines file ls = .ok m ↔ Reads {} ls { module := m } := by
  unfold parseLines
  constructor
  · intro h
    split at h
    · cases h
    · next module n hrun =>
        obtain rfl := Except.ok.inj h
        exact (run_eq_ok_iff.1 hrun).1
    · cases h
  · intro h
    rw [run_eq_ok_iff.2 ⟨h, rfl⟩]

/-- What every step keeps, reading keeps. -/
theorem Reads.induction {P : Reader → Prop} (h : Reads r ls r') (hr : P r)
    (hstep : ∀ r r' : Reader, ∀ l ∈ ls, r.step l.toList = .ok r' → P r → P r') : P r' := by
  induction h with
  | nil => exact hr
  | cons hok _ ih =>
      apply ih (hstep _ _ _ List.mem_cons_self hok hr)
      exact fun r r' l hl => hstep r r' l (List.mem_cons_of_mem _ hl)

/-! ## Lines of a written text -/

/-- Lines that can stand in a text lead from one state to the other. -/
structure Rereads (r : Reader) (ls : List String) (r' : Reader) : Prop where
  reads : Reads r ls r'
  isLine : ∀ l ∈ ls, IsLine l.toList

namespace Rereads

theorem nil : Rereads r [] r := ⟨.nil, by simp⟩

theorem singleton (hl : IsLine l.toList) (h : r.step l.toList = .ok r') : Rereads r [l] r' :=
  ⟨.singleton h, by simpa using hl⟩

theorem append (h : Rereads r ls r') (h' : Rereads r' ls' r'') : Rereads r (ls ++ ls') r'' := by
  refine ⟨h.reads.append h'.reads, fun l hl => ?_⟩
  rcases List.mem_append.1 hl with hl | hl
  · exact h.isLine l hl
  · exact h'.isLine l hl

/-- An empty line that the state does not mind. -/
theorem blank (h : r.step [] = .ok r) : Rereads r [""] r :=
  singleton ⟨List.not_mem_nil, by simp⟩ h

variable {α : Type} {as : List α} (state : List α → Reader)

/-- Parts with the same lines between any two of them, each read behind those in front of it. -/
theorem intercalate (parts : α → List String) (sep : List String)
    (hsep : ∀ front, Rereads (state front) sep (state front))
    (h : ∀ front a back, as = front ++ a :: back →
      Rereads (state front) (parts a) (state (front ++ [a]))) :
    Rereads (state []) (sep.intercalate (as.map parts)) (state as) := by
  suffices hback : ∀ front back, as = front ++ back →
      Rereads (state front) (sep.intercalate (back.map parts)) (state as) from hback [] as rfl
  intro front back
  induction back generalizing front with
  | nil =>
      intro has
      rw [has, List.append_nil]
      exact nil
  | cons a back ih =>
      intro has
      have hrest := ih (front ++ [a]) (by rw [has, List.append_assoc, List.singleton_append])
      cases back with
      | nil =>
          rw [List.map_singleton, List.intercalate_singleton, has]
          exact h front a [] has
      | cons b back =>
          rw [List.map_cons, List.map_cons, List.intercalate_cons_cons]
          exact ((h front a _ has).append (hsep _)).append hrest

theorem intercalate_nil_map (line : α → String) (as : List α) :
    [].intercalate (as.map fun a => [line a]) = as.map line := by
  induction as with
  | nil => rfl
  | cons a as ih =>
      cases as with
      | nil => rfl
      | cons b as =>
          rw [List.map_cons] at ih
          rw [List.map_cons, List.map_cons, List.intercalate_cons_cons, ih]
          rfl

/-- Lines that are read one by one. -/
theorem map (line : α → String) (h : ∀ front a back, as = front ++ a :: back →
      Rereads (state front) [line a] (state (front ++ [a]))) :
    Rereads (state []) (as.map line) (state as) := by
  have hlines := intercalate state (fun a => [line a]) [] (fun _ => nil) h
  rwa [intercalate_nil_map] at hlines

end Rereads

end Module.Reader

end SsaIr
