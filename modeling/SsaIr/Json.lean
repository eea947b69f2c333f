/-!
# JSON values

JSON data as a tree, with the fields of an object in order. The decoders of this module are the
pieces that decoders of records are put together from: a record is an object with its fields under
their names, or the array of its fields in order; a tagged value is a tag alone or an object with
the tag as its only name. What a tag carries is written in full: fields behind a tag are an object.
-/

namespace SsaIr

inductive Json where
  | null
  | bool (b : Bool)
  /-- The number `mantissa / 10 ^ scale`. -/
  | number (mantissa : Int) (scale : Nat)
  | string (s : String)
  | array (items : List Json)
  | object (fields : List (String × Json))
  deriving Inhabited

namespace Json

def int (n : Int) : Json := number n 0

/-- The value itself, or null for none. -/
def ofOption {α : Type} (encode : α → Json) : Option α → Json
  | some a => encode a
  | none => null

def ofList {α : Type} (encode : α → Json) (as : List α) : Json := array (as.map encode)

/-- A tag with what it carries. -/
def tagged (tag : String) (payload : Json) : Json := object [(tag, payload)]

def asString? : Json → Option String
  | string s => some s
  | _ => none

def asBool? : Json → Option Bool
  | bool b => some b
  | _ => none

/-- A number written as an integer. -/
def asInt? : Json → Option Int
  | number n 0 => some n
  | _ => none

def asArray? : Json → Option (List Json)
  | array items => some items
  | _ => none

def asList? {α : Type} (decode : Json → Option α) (j : Json) : Option (List α) :=
  j.asArray?.bind (·.mapM decode)

/-- Null for none, else a value. -/
def asOption? {α : Type} (decode : Json → Option α) : Json → Option (Option α)
  | null => some none
  | j => (decode j).map some

/-- What an object holds under a name. -/
def get? (j : Json) (name : String) : Option Json :=
  match j with
  | object fields => fields.lookup name
  | _ => none

/-- The fields of an object by name. -/
def fields? (names : List String) (j : Json) : Option (List (Option Json)) :=
  match j with
  | object _ => some (names.map j.get?)
  | _ => none

/-- The fields of a record: those of an object by name, and those of an array by place, where the
last `defaulted` fields may be left out. -/
def record? (names : List String) (defaulted : Nat) (j : Json) : Option (List (Option Json)) :=
  match j with
  | array items =>
    if items.length ≤ names.length ∧ names.length ≤ items.length + defaulted then
      some (items.map some ++ List.replicate (names.length - items.length) none)
    else none
  | j => j.fields? names

/-- A field that has to be there. -/
def required {α : Type} (decode : Json → Option α) (field : Option Json) : Option α :=
  field.bind decode

/-- A field that may be left out or null. -/
def optional {α : Type} (decode : Json → Option α) (field : Option Json) : Option (Option α) :=
  match field with
  | none => some none
  | some j => asOption? decode j

/-- A field that may be left out but not null. -/
def withDefault {α : Type} (default : α) (decode : Json → Option α) (field : Option Json) :
    Option α :=
  match field with
  | none => some default
  | some j => decode j

/-- A tag, and what it carries if it stands in an object. -/
def variant? : Json → Option (String × Option Json)
  | string tag => some (tag, none)
  | object [(tag, payload)] => some (tag, some payload)
  | _ => none

/-- A tag that carries nothing. -/
def bareTag? (j : Json) : Option String :=
  match j.variant? with
  | some (tag, none) | some (tag, some null) => some tag
  | _ => none

theorem sizeOf_lt_of_get? {j v : Json} {name : String} (h : j.get? name = some v) :
    sizeOf v < sizeOf j := by
  cases j with
  | object fields =>
      simp only [get?] at h
      obtain ⟨l₁, l₂, rfl, -⟩ := List.lookup_eq_some_iff.1 h
      have hmem : (name, v) ∈ l₁ ++ (name, v) :: l₂ := by simp
      have := List.sizeOf_lt_of_mem hmem
      simp only [object.sizeOf_spec, Prod.mk.sizeOf_spec] at *
      omega
  | _ => simp [get?] at h

theorem sizeOf_lt_of_mem_fields? {names : List String} {j v : Json}
    {fields : List (Option Json)} (h : j.fields? names = some fields) (hv : some v ∈ fields) :
    sizeOf v < sizeOf j := by
  cases j with
  | object entries =>
      simp only [fields?, Option.some.injEq] at h
      subst h
      obtain ⟨name, -, hname⟩ := List.mem_map.1 hv
      exact sizeOf_lt_of_get? hname
  | _ => simp [fields?] at h

theorem sizeOf_lt_of_variant? {j payload : Json} {tag : String}
    (h : j.variant? = some (tag, some payload)) : sizeOf payload < sizeOf j := by
  unfold variant? at h
  split at h
  · simp at h
  · simp only [Option.some.injEq, Prod.mk.injEq] at h
    obtain ⟨rfl, rfl⟩ := h
    simp only [object.sizeOf_spec, List.cons.sizeOf_spec, Prod.mk.sizeOf_spec]
    omega
  · simp at h

theorem sizeOf_lt_of_asArray? {j item : Json} {items : List Json} (h : j.asArray? = some items)
    (hi : item ∈ items) : sizeOf item < sizeOf j := by
  cases j with
  | array items' =>
      simp only [asArray?, Option.some.injEq] at h
      subst h
      have := List.sizeOf_lt_of_mem hi
      simp only [array.sizeOf_spec]
      omega
  | _ => simp [asArray?] at h

end Json

end SsaIr
