import Mathlib.Data.List.Forall2
import Mathlib.Data.List.Nodup
import SsaIr.Json

/-!
# Abridged JSON

Encoding writes every field of a record, also one that holds nothing. An abridged value leaves out
some of the fields that hold null or their default, in any objects of the tree. In an abridged
record each field is found, abridged in turn, or it is left out where that is allowed; so the
pieces of the decoders undo the encoders also where the encoding has been abridged.
-/

namespace SsaIr.Json

/-- Whether a field may be left out: it holds null, which is written for options only, or it is
one of those that have a default and holds that. -/
def isOmissible (name : String) : Json → Bool
  | null => true
  | array [] => name ∈ ["incoming", "flags", "attributes", "modifiers"]
  | bool false => name ∈ ["inbounds", "offset_load", "tail"]
  | _ => false

mutual

/-- The second value is the first one without some of the omissible fields of its objects. -/
inductive Abridged : Json → Json → Prop where
  | null : Abridged null null
  | bool (b : Bool) : Abridged (bool b) (bool b)
  | number (mantissa : Int) (scale : Nat) : Abridged (number mantissa scale) (number mantissa scale)
  | string (s : String) : Abridged (string s) (string s)
  | array {items items' : List Json} : List.Forall₂ Abridged items items' →
      Abridged (array items) (array items')
  | object {fields fields' : List (String × Json)} : AbridgedFields fields fields' →
      Abridged (object fields) (object fields')

/-- The same for the fields of one object. -/
inductive AbridgedFields : List (String × Json) → List (String × Json) → Prop where
  | nil : AbridgedFields [] []
  | keep {name : String} {j j' : Json} {fields fields' : List (String × Json)} :
      Abridged j j' → AbridgedFields fields fields' →
      AbridgedFields ((name, j) :: fields) ((name, j') :: fields')
  | leaveOut {name : String} {j : Json} {fields fields' : List (String × Json)} :
      isOmissible name j = true → AbridgedFields fields fields' →
      AbridgedFields ((name, j) :: fields) fields'

end

mutual

/-- The value without any omissible field. -/
def shortest : Json → Json
  | array items => array (shortestItems items)
  | object fields => object (shortestFields fields)
  | j => j

def shortestItems : List Json → List Json
  | [] => []
  | j :: js => j.shortest :: shortestItems js

def shortestFields : List (String × Json) → List (String × Json)
  | [] => []
  | (name, j) :: fields =>
    if isOmissible name j then shortestFields fields
    else (name, j.shortest) :: shortestFields fields

end

mutual

theorem abridged_refl : ∀ j : Json, Abridged j j
  | null => .null
  | bool b => .bool b
  | number mantissa scale => .number mantissa scale
  | string s => .string s
  | array items => .array (abridged_refl_items items)
  | object fields => .object (abridged_refl_fields fields)

theorem abridged_refl_items : ∀ items : List Json, List.Forall₂ Abridged items items
  | [] => .nil
  | j :: js => .cons (abridged_refl j) (abridged_refl_items js)

theorem abridged_refl_fields : ∀ fields : List (String × Json), AbridgedFields fields fields
  | [] => .nil
  | (_, j) :: fields => .keep (abridged_refl j) (abridged_refl_fields fields)

end

mutual

theorem abridged_shortest : ∀ j : Json, Abridged j j.shortest
  | null => .null
  | bool b => .bool b
  | number mantissa scale => .number mantissa scale
  | string s => .string s
  | array items => .array (abridged_shortestItems items)
  | object fields => .object (abridged_shortestFields fields)

theorem abridged_shortestItems : ∀ items : List Json,
    List.Forall₂ Abridged items (shortestItems items)
  | [] => .nil
  | j :: js => .cons (abridged_shortest j) (abridged_shortestItems js)

theorem abridged_shortestFields : ∀ fields : List (String × Json),
    AbridgedFields fields (shortestFields fields)
  | [] => .nil
  | (name, j) :: fields => by
    rw [shortestFields]
    split
    · next h => exact .leaveOut h (abridged_shortestFields fields)
    · exact .keep (abridged_shortest j) (abridged_shortestFields fields)

end

/-- What a record is found to hold in a field: the value abridged, or nothing if it may be left
out. -/
inductive Found (name : String) (j : Json) : Option Json → Prop where
  | kept {j' : Json} : Abridged j j' → Found name j (some j')
  | leftOut : isOmissible name j = true → Found name j none

variable {α : Type} {name tag : String} {j j' payload : Json}
variable {fields fields' : List (String × Json)}

theorem AbridgedFields.lookup_eq_none (h : AbridgedFields fields fields')
    (hname : name ∉ fields.map Prod.fst) : fields'.lookup name = none := by
  induction fields generalizing fields' with
  | nil =>
      cases h
      rfl
  | cons field fields ih =>
      simp only [List.map_cons, List.mem_cons, not_or] at hname
      cases h with
      | keep _ hrest =>
          rw [List.lookup_cons, beq_false_of_ne hname.1]
          exact ih hrest hname.2
      | leaveOut _ hrest => exact ih hrest hname.2

/-- Every field of a record is found abridged or left out, under its own name only. -/
theorem AbridgedFields.found (h : AbridgedFields fields fields')
    (hnames : (fields.map Prod.fst).Nodup) (hmem : (name, j) ∈ fields) :
    Found name j (fields'.lookup name) := by
  induction fields generalizing fields' with
  | nil => cases hmem
  | cons field fields ih =>
      obtain ⟨hfresh, hrestNames⟩ := List.nodup_cons.1 hnames
      have hne : (name, j) ∈ fields → name ≠ field.1 := by
        intro hin heq
        exact hfresh (heq ▸ List.mem_map_of_mem hin)
      cases h with
      | keep hj hrest =>
          rcases List.mem_cons.1 hmem with heq | hin
          · cases heq
            rw [List.lookup_cons_self]
            exact .kept hj
          · rw [List.lookup_cons, beq_false_of_ne (hne hin)]
            exact ih hrest hrestNames hin
      | leaveOut ho hrest =>
          rcases List.mem_cons.1 hmem with heq | hin
          · cases heq
            rw [hrest.lookup_eq_none hfresh]
            exact .leftOut ho
          · exact ih hrest hrestNames hin

/-- An abridged record is an object in which every field is found. -/
theorem record_of_abridged (h : Abridged (object fields) j)
    (hnames : (fields.map Prod.fst).Nodup) :
    ∃ fields', j = object fields' ∧
      ∀ name value, (name, value) ∈ fields → Found name value ((object fields').get? name) := by
  cases h with
  | object hfields => exact ⟨_, rfl, fun name value => hfields.found hnames⟩

theorem isOmissible_array (h : isOmissible name (array []) = false) (items : List Json) :
    isOmissible name (array items) = false := by
  cases items with
  | nil => exact h
  | cons _ _ => rfl

theorem isOmissible_bool (h : isOmissible name (bool false) = false) (b : Bool) :
    isOmissible name (bool b) = false := by
  cases b with
  | false => exact h
  | true => rfl

theorem eq_nil_of_isOmissible {encode : α → Json} {as : List α}
    (h : isOmissible name (ofList encode as) = true) : as = [] := by
  cases as with
  | nil => rfl
  | cons _ _ => cases h

theorem eq_false_of_isOmissible {b : Bool} (h : isOmissible name (bool b) = true) :
    b = false := by
  cases b with
  | false => rfl
  | true => cases h

/-- A tag stays where its payload is no omissible value. -/
theorem tagged_of_abridged (h : Abridged (tagged tag payload) j)
    (hkept : isOmissible tag payload = false) :
    ∃ payload', j = tagged tag payload' ∧ Abridged payload payload' := by
  cases h with
  | object hfields =>
      cases hfields with
      | keep hp hrest =>
          cases hrest
          exact ⟨_, rfl, hp⟩
      | leaveOut ho _ => cases hkept.symm.trans ho

theorem array_of_abridged {items : List Json} (h : Abridged (array items) j) :
    ∃ items', j = array items' ∧ List.Forall₂ Abridged items items' := by
  cases h with
  | array hitems => exact ⟨_, rfl, hitems⟩

theorem eq_null_of_abridged (h : Abridged j null) : j = null := by
  cases h
  rfl

/-- Decoding undoes encoding, also where the encoding has been abridged. -/
def Undoes (decode : Json → Option α) (encode : α → Json) : Prop :=
  ∀ a j, Abridged (encode a) j → decode j = some a

theorem undoes_string : Undoes asString? string := by
  intro s j h
  cases h
  rfl

theorem undoes_bool : Undoes asBool? bool := by
  intro b j h
  cases h
  rfl

theorem undoes_int : Undoes asInt? int := by
  intro n j h
  cases h
  rfl

/-- Tags without payload are read back if a look-up finds each by its tag. -/
theorem undoes_bareTag {tagOf : α → String} {find : String → Option α}
    (h : ∀ a, find (tagOf a) = some a) :
    Undoes (fun j => j.bareTag?.bind find) fun a => string (tagOf a) := by
  intro a j hj
  cases hj
  exact h a

theorem mapM_eq_some_of_forall₂ {β : Type} {decode : α → Option β} {as : List α} {bs : List β}
    (h : List.Forall₂ (fun a b => decode a = some b) as bs) : as.mapM decode = some bs := by
  induction h with
  | nil => rfl
  | cons ha _ ih => simp [List.mapM_cons, ha, ih]

theorem undoes_list {decode : Json → Option α} {encode : α → Json} (h : Undoes decode encode) :
    Undoes (asList? decode) (ofList encode) := by
  intro as j hj
  obtain ⟨items, rfl, hitems⟩ := array_of_abridged hj
  rw [List.forall₂_map_left_iff] at hitems
  apply mapM_eq_some_of_forall₂
  exact (hitems.imp fun a j => h a j).flip

theorem asOption?_of_ne_null {decode : Json → Option α} (h : j ≠ null) :
    asOption? decode j = (decode j).map some := by
  cases j with
  | null => exact absurd rfl h
  | _ => rfl

theorem Found.exists_kept {found : Option Json} (h : Found name j found)
    (hkept : isOmissible name j = false) : ∃ j', found = some j' ∧ Abridged j j' := by
  cases h with
  | kept hj => exact ⟨_, rfl, hj⟩
  | leftOut ho => cases hkept.symm.trans ho

/-! Reading goes on with what was encoded in a field. -/

section

variable {β : Type} {decode : Json → Option α} {encode : α → Json} {a default : α} {b : β}
variable {found : Option Json}

/-- A field that has to be there holds no omissible value. -/
theorem Found.required {next : α → Option β} (h : Found name (encode a) found)
    (hd : Undoes decode encode) (hkept : isOmissible name (encode a) = false)
    (hnext : next a = some b) : (required decode found).bind next = some b := by
  obtain ⟨j', rfl, hj⟩ := h.exists_kept hkept
  have hread : Json.required decode (some j') = some a := hd a j' hj
  rw [hread]
  exact hnext

/-- A field for an option is null or left out for none, and holds no omissible value otherwise. -/
theorem Found.optional {a : Option α} {next : Option α → Option β}
    (h : Found name (ofOption encode a) found) (hd : Undoes decode encode)
    (hkept : ∀ a, isOmissible name (encode a) = false) (hnext : next a = some b) :
    (optional decode found).bind next = some b := by
  have hread : Json.optional decode found = some a := by
    cases a with
    | none =>
        cases h with
        | kept hj =>
            cases hj
            rfl
        | leftOut _ => rfl
    | some a =>
        obtain ⟨j', rfl, hj⟩ := h.exists_kept (hkept a)
        have hnull : j' ≠ null := by
          rintro rfl
          have hname := hkept a
          rw [show encode a = null from eq_null_of_abridged hj] at hname
          cases hname
        calc
          asOption? decode j' = (decode j').map some := asOption?_of_ne_null hnull
          _ = some (some a) := by rw [hd a j' hj, Option.map_some]
  rw [hread]
  exact hnext

/-- A field with a default is left out for no other value. -/
theorem Found.withDefault {next : α → Option β} (h : Found name (encode a) found)
    (hd : Undoes decode encode) (hdefault : isOmissible name (encode a) = true → a = default)
    (hnext : next a = some b) : (withDefault default decode found).bind next = some b := by
  have hread : Json.withDefault default decode found = some a := by
    cases h with
    | kept hj => exact hd a _ hj
    | leftOut ho =>
        rw [hdefault ho]
        rfl
  rw [hread]
  exact hnext

end

end SsaIr.Json
