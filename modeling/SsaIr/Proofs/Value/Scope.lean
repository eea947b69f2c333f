import SsaIr.Proofs.Except
import SsaIr.Proofs.Value.RoundTrip

/-!
# Local names of values that were read

A local name that was read is a parameter exactly if it is in the scope. That also holds inside
operations on constants, whose operands are read in the same scope.
-/

namespace SsaIr

open Text

namespace Value

variable {scope : List String} {s : List Char} {type n : String} {v w : Value} {vs : List Value}

/-- One value stands in the other: it is the other, or stands in one of its operands. -/
inductive Occurs : Value → Value → Prop
  | here {v : Value} : Occurs v v
  | operand {v w : Value} {opcode type : String} {vs : List Value} (hmem : w ∈ vs)
      (hinside : Occurs v w) : Occurs v (.expr opcode vs type)

/-- All local names in the value are told apart by the scope. -/
structure Scoped (scope : List String) (v : Value) : Prop where
  argument : ∀ name type, Occurs (.argument name type) v → name ∈ scope
  temp : ∀ name type, Occurs (.temp name type) v → name ∉ scope

/-- The value was read from some text as an operand of some type. -/
def IsRead (scope : List String) (v : Value) : Prop := ∃ s type, parse scope s type = .ok v

theorem isRead_of_parse (h : parse scope s type = .ok v) : v.IsRead scope := ⟨s, type, h⟩

/-- A typed operand is read as a bare one, where metadata can be of any type. -/
theorem isRead_of_parseTyped (h : parseTyped scope s = .ok v) : v.IsRead scope := by
  unfold parseTyped at h
  split at h
  · cases h
  · next tag htag =>
      cases h
      obtain ⟨hhead, rfl⟩ := typedForm_eq_metadata htag
      have hsolid : Solid (trim s) := by
        apply solid_trim
        intro hnil
        rw [hnil] at hhead
        cases hhead
      exact ⟨trim s, "", parse_of_form (form_metadata hsolid hhead)⟩
  · exact ⟨_, _, h⟩

theorem isRead_of_parseTypedList (h : parseTypedList scope s = .ok vs) :
    ∀ v ∈ vs, v.IsRead scope := by
  obtain ⟨parts, -, hvs⟩ := bind_eq_ok_iff.1 h
  intro v hv
  obtain ⟨part, -, hpart⟩ := exists_of_mem_result hvs hv
  exact isRead_of_parseTyped hpart

/-- A local name in the scope is a parameter, one outside a temporary, and otherwise the value
neither names anything local nor has operands. -/
inductive Resolved (scope : List String) : Value → Prop
  | argument {name type : String} (h : name ∈ scope) : Resolved scope (.argument name type)
  | temp {name type : String} (h : name ∉ scope) : Resolved scope (.temp name type)
  | other {v : Value} (hname : v.localName? = none)
      (hexpr : ∀ opcode vs type, v ≠ .expr opcode vs type) : Resolved scope v

theorem resolved_ofLocalName (scope : List String) (name type : String) :
    Resolved scope (ofLocalName scope name type) := by
  unfold ofLocalName
  split
  · exact .other rfl fun _ _ _ h => by cases h
  · split
    · next hmem => exact .argument hmem
    · next hnot => exact .temp hnot

theorem resolved_of_spells (h : Spells scope type s (.value v)) : Resolved scope v := by
  cases h with
  | localName => exact resolved_ofLocalName scope _ type
  | _ => exact .other rfl fun _ _ _ h => by cases h

/-- What was read is resolved in the scope, or an operation on values that were read in it. -/
theorem IsRead.cases (h : v.IsRead scope) : Resolved scope v ∨
    ∃ opcode vs type, v = .expr opcode vs type ∧ ∀ w ∈ vs, w.IsRead scope := by
  obtain ⟨s, type, h⟩ := h
  rw [parse_eq] at h
  split at h
  · cases h
  · next hform =>
      cases h
      exact .inl (resolved_of_spells (spells_of_form hform).2)
  · obtain ⟨vs, hvs, rfl⟩ := map_eq_ok_iff.1 h
    exact .inr ⟨_, vs, _, rfl, isRead_of_parseTypedList hvs⟩

/-- What stands in a value that was read was read in the same scope. -/
theorem IsRead.of_occurs (h : w.IsRead scope) (hoccurs : Occurs v w) : v.IsRead scope := by
  induction hoccurs with
  | here => exact h
  | operand hmem _ ih =>
      rcases h.cases with hresolved | ⟨_, _, _, heq, hall⟩
      · cases hresolved with
        | other _ hexpr => exact absurd rfl (hexpr _ _ _)
      · obtain ⟨-, rfl, -⟩ := Value.expr.inj heq
        exact ih (hall _ hmem)

/-- A local name that was read is a parameter exactly if it is in scope. -/
theorem IsRead.scoped (h : v.IsRead scope) : v.Scoped scope where
  argument name type hoccurs := by
    rcases (h.of_occurs hoccurs).cases with hresolved | ⟨_, _, _, heq, -⟩
    · cases hresolved with
      | argument hmem => exact hmem
      | other hname => cases hname
    · cases heq
  temp name type hoccurs := by
    rcases (h.of_occurs hoccurs).cases with hresolved | ⟨_, _, _, heq, -⟩
    · cases hresolved with
      | temp hnot => exact hnot
      | other hname => cases hname
    · cases heq

end Value

end SsaIr
