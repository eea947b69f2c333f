import SsaIr.Text.Decimal
import SsaIr.Text.Identifier
import SsaIr.Value

/-!
# Reading values

An operand is written bare, where its type is known, or after its type token. The scope is the
list of parameter names of the enclosing function: it decides whether a local name is a parameter
or a temporary. Reading recurses only into the parentheses of an operation on constants, whose
text is shorter than the operand.
-/

namespace SsaIr

open Text

/-- The parts between top-level commas, or the complaint that brackets do not balance. -/
def splitOperands (s : List Char) : Except ParseError (List (List Char)) :=
  match splitTop? s with
  | some parts => .ok parts
  | none => .error (.unbalancedBrackets (String.ofList s))

theorem splitOperands_eq_ok_iff {s : List Char} {parts : List (List Char)} :
    splitOperands s = .ok parts ↔ splitTop? s = some parts := by
  cases h : splitTop? s <;> simp [splitOperands, h]

theorem splitOperands_eq_error_iff {s : List Char} {e : ParseError} :
    splitOperands s = .error e ↔
      e = .unbalancedBrackets (String.ofList s) ∧ splitTop? s = none := by
  cases h : splitTop? s <;> simp [splitOperands, h, eq_comm]

/-- The words in front of the parentheses of an operation on constants, and what stands between
these. -/
def constantExpression? (s : List Char) : Option (List (List Char) × List Char) :=
  match splitAt? '(' s with
  | none => none
  | some (front, rest) =>
    match before? [')'] rest with
    | none => none
    | some inside =>
      if front.head?.any Char.isLower ∧ front.all (fun c => c.isLower || isBlank c) ∧
          '\n' ∉ inside then
        some (words front, inside)
      else none

theorem length_inside_lt {s : List Char} {ws : List (List Char)} {inside : List Char}
    (h : constantExpression? s = some (ws, inside)) : inside.length < s.length := by
  unfold constantExpression? at h
  split at h
  · simp at h
  · next front rest hs =>
      split at h
      · simp at h
      · next inside' hb =>
          split at h
          · simp only [Option.some.injEq, Prod.mk.injEq] at h
            obtain ⟨-, rfl⟩ := h
            obtain ⟨rfl, -⟩ := splitAt?_eq_some_iff.1 hs
            rw [before?_eq_some_iff.1 hb]
            simp only [List.length_append, List.length_cons, List.length_nil]
            omega
          · simp at h

namespace Value

/-- A bare operand, read as far as that needs no other operand. -/
inductive Form where
  | value (v : Value)
  /-- An operation on constants with the text of its operands. -/
  | expr (opcode : String) (inside : List Char)

/-- A block reference `%name`. -/
def parseLabel (s : List Char) : Except ParseError Value :=
  match sigilName? '%' s with
  | some name => .ok (label name)
  | none => .error (.unknownArgument ("label " ++ String.ofList s))

/-- A local name: a block where a label is expected, else a parameter in scope or a temporary. -/
def ofLocalName (scope : List String) (name type : String) : Value :=
  if type = TypeToken.label then label name
  else if name ∈ scope then argument name type
  else temp name type

/-- The form of a trimmed operand that is no metadata, no label and no number. -/
def formOfSymbol (scope : List String) (s : List Char) (type : String) :
    Except ParseError Form :=
  match s with
  | '%' :: _ =>
    match sigilName? '%' s with
    | some name => .ok (.value (ofLocalName scope name type))
    | none => .error (.unknownArgument (String.ofList s))
  | '@' :: _ =>
    match sigilName? '@' s with
    | some name => .ok (.value (global name type))
    | none => .error (.unknownArgument (String.ofList s))
  | 'c' :: '"' :: _ => .ok (.value (data (String.ofList s) type))
  | _ =>
    match constantExpression? s with
    | some (ws, inside) => .ok (.expr (" ".intercalate (ws.map String.ofList)) inside)
    | none => .error (.unknownArgument (String.ofList s))

/-- The form of a bare operand of the given type. -/
def form (scope : List String) (text : List Char) (type : String) : Except ParseError Form :=
  let s := trim text
  if s.isEmpty then .error (.missingOperand ("expected a " ++ type ++ " value"))
  else if s.head? = some '!' then .ok (.value (metadata (String.ofList s)))
  else
    match after? "label ".toList s with
    | some rest => (parseLabel (trim rest)).map .value
    | none =>
      if s = "true".toList then .ok (.value (int 1 type))
      else if s = "false".toList then .ok (.value (int 0 type))
      else
        match int? s with
        | some n =>
          match toInt64? n with
          | some value => .ok (.value (int value type))
          | none => .error (.invalidInteger (String.ofList s))
        | none => formOfSymbol scope s type

/-- A typed operand before its value is read. -/
inductive TypedForm where
  | metadata (tag : String)
  | typed (type : String) (value : List Char)

/-- The type and the value of a typed operand. Nothing may stand between the two, and a value of
several words is a data array, an operation on constants, or a label. -/
def typedForm (text : List Char) : Except ParseError TypedForm :=
  let s := trim text
  if s.head? = some '!' then .ok (.metadata (String.ofList s))
  else
    match TypeToken.take s with
    | .error e => .error e
    | .ok (type, rest) =>
      if rest.isEmpty then
        .error (.missingOperand ("no value after type in `" ++ String.ofList s ++ "`"))
      else if (after? ['c', '"'] rest).isSome || (constantExpression? rest).isSome ||
          (nextToken rest).2.isEmpty || type = TypeToken.label.toList then
        .ok (.typed (String.ofList type) rest)
      else .error (.unsupportedAttribute (String.ofList (nextToken rest).1))

theorem length_lt_of_form {scope : List String} {text : List Char} {type opcode : String}
    {inside : List Char} (h : form scope text type = .ok (.expr opcode inside)) :
    inside.length < text.length := by
  refine Nat.lt_of_lt_of_le ?_ (length_trim_le text)
  have key : formOfSymbol scope (trim text) type = .ok (.expr opcode inside) := by
    unfold form at h
    simp only at h
    split at h
    · simp at h
    · split at h
      · simp at h
      · split at h
        · next rest _ =>
            cases hp : parseLabel (trim rest) <;> simp [hp, Except.map] at h
        · split at h
          · simp at h
          · split at h
            · simp at h
            · split at h
              · split at h <;> simp at h
              · exact h
  unfold formOfSymbol at key
  split at key
  · split at key <;> simp at key
  · split at key <;> simp at key
  · simp at key
  · split at key
    · next ws inside' hc =>
        simp only [Except.ok.injEq, Form.expr.injEq] at key
        obtain ⟨-, rfl⟩ := key
        exact length_inside_lt hc
    · simp at key

theorem length_le_of_typedForm {text value : List Char} {type : String}
    (h : typedForm text = .ok (.typed type value)) : value.length ≤ text.length := by
  refine Nat.le_trans ?_ (length_trim_le text)
  unfold typedForm at h
  simp only at h
  split at h
  · simp at h
  · split at h
    · simp at h
    · next ht =>
        split at h
        · simp at h
        · split at h
          · simp only [Except.ok.injEq, TypedForm.typed.injEq] at h
            obtain ⟨-, rfl⟩ := h
            exact TypeToken.length_rest_le_of_take ht
          · simp at h

/-- Read a bare operand of the given type. -/
def parse (scope : List String) (text : List Char) (type : String) : Except ParseError Value :=
  match _hf : form scope text type with
  | .error e => .error e
  | .ok (.value v) => .ok v
  | .ok (.expr opcode inside) =>
    match _hs : splitTop? inside with
    | none => .error (.unbalancedBrackets (String.ofList inside))
    | some parts =>
      let operands : Except ParseError (List Value) := parts.attach.mapM fun part =>
        match _ht : typedForm part.1 with
        | .error e => .error e
        | .ok (.metadata tag) => .ok (metadata tag)
        | .ok (.typed type value) => parse scope value type
      operands.map (expr opcode · type)
termination_by text.length
decreasing_by
  exact Nat.lt_of_le_of_lt
    (Nat.le_trans (length_le_of_typedForm _ht) (length_le_of_mem_splitTop? _hs part.2))
    (length_lt_of_form _hf)

/-- Read an operand that its type precedes. -/
def parseTyped (scope : List String) (text : List Char) : Except ParseError Value :=
  match typedForm text with
  | .error e => .error e
  | .ok (.metadata tag) => .ok (metadata tag)
  | .ok (.typed type value) => parse scope value type

/-- Read operands between top-level commas, each preceded by its type. -/
def parseTypedList (scope : List String) (text : List Char) : Except ParseError (List Value) := do
  (← splitOperands text).mapM (parseTyped scope)

/-- An operation on constants is read through its typed operands. -/
theorem parse_eq (scope : List String) (text : List Char) (type : String) :
    parse scope text type =
      match form scope text type with
      | .error e => .error e
      | .ok (.value v) => .ok v
      | .ok (.expr opcode inside) => (parseTypedList scope inside).map (expr opcode · type) := by
  rw [parse]
  split
  · next h => simp [h]
  · next h => simp [h]
  · next opcode inside h =>
      simp only [h, parseTypedList, splitOperands]
      split
      · next hs => simp [hs, Except.map, bind, Except.bind]
      · next parts hs =>
          simp only [hs, bind, Except.bind]
          congr 1
          rw [List.mapM_subtype (g := parseTyped scope), List.unattach_attach]
          intro part _
          simp only [parseTyped]
          split <;> simp_all

end Value

end SsaIr
