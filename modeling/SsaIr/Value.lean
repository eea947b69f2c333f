import SsaIr.TypeToken

/-!
# Values

The operands of instructions: references to parameters, temporaries, globals and blocks,
constants, and opaque metadata. All but labels and metadata carry the type token they were
written or made with.
-/

namespace SsaIr

inductive Value where
  /-- A parameter of the enclosing function. -/
  | argument (name type : String)
  /-- A global variable or a function. -/
  | global (name type : String)
  | int (value : Int64) (type : String)
  /-- A data array, kept as written. -/
  | data (literal type : String)
  /-- The result of an instruction of the enclosing function. -/
  | temp (name type : String)
  | label (name : String)
  /-- An operation on constants, written in operand position. -/
  | expr (opcode : String) (operands : List Value) (type : String)
  | metadata (tag : String)
  deriving Inhabited

namespace Value

mutual

def beq : Value → Value → Bool
  | argument n t, argument n' t' => n == n' && t == t'
  | global n t, global n' t' => n == n' && t == t'
  | int v t, int v' t' => v == v' && t == t'
  | data l t, data l' t' => l == l' && t == t'
  | temp n t, temp n' t' => n == n' && t == t'
  | label n, label n' => n == n'
  | expr o vs t, expr o' vs' t' => o == o' && beqAll vs vs' && t == t'
  | metadata m, metadata m' => m == m'
  | _, _ => false

def beqAll : List Value → List Value → Bool
  | [], [] => true
  | v :: vs, w :: ws => v.beq w && beqAll vs ws
  | _, _ => false

end

mutual

theorem beq_eq_true_iff : ∀ {v w : Value}, v.beq w = true ↔ v = w
  | expr o vs t, w => by
    cases w <;> simp [beq, @beqAll_eq_true_iff vs, and_assoc]
  | argument .., w | global .., w | int .., w | data .., w | temp .., w | label .., w
  | metadata .., w => by cases w <;> simp [beq]

theorem beqAll_eq_true_iff : ∀ {vs ws : List Value}, beqAll vs ws = true ↔ vs = ws
  | [], ws => by cases ws <;> simp [beqAll]
  | v :: vs, ws => by
    cases ws <;> simp [beqAll, @beq_eq_true_iff v, @beqAll_eq_true_iff vs]

end

instance : DecidableEq Value := fun _ _ => decidable_of_iff _ beq_eq_true_iff

/-- The type token of a value. -/
def type : Value → String
  | argument _ t | global _ t | int _ t | data _ t | temp _ t | expr _ _ t => t
  | label _ => TypeToken.label
  | metadata _ => TypeToken.metadata

/-- The name of the parameter or temporary referred to. -/
def localName? : Value → Option String
  | argument name _ | temp name _ => some name
  | _ => none

/-- The name of the block referred to. -/
def labelName? : Value → Option String
  | label name => some name
  | _ => none

def isConstant : Value → Bool
  | int .. | data .. | expr .. => true
  | _ => false

mutual

/-- The value as written where its type is known. -/
def text : Value → String
  | argument name _ | temp name _ | label name => "%" ++ name
  | global name _ => "@" ++ name
  | int value _ => toString value.toInt
  | data literal _ => literal
  | expr opcode operands _ =>
    opcode ++ " (" ++ ", ".intercalate (typedTexts operands) ++ ")"
  | metadata tag => tag

/-- Each value preceded by its type; metadata has none. -/
def typedTexts : List Value → List String
  | [] => []
  | metadata tag :: vs => tag :: typedTexts vs
  | v :: vs => (v.type ++ " " ++ v.text) :: typedTexts vs

end

/-- The value preceded by its type; metadata has none. -/
def typedText : Value → String
  | metadata tag => tag
  | v => v.type ++ " " ++ v.text

theorem typedTexts_eq_map (vs : List Value) : typedTexts vs = vs.map typedText := by
  induction vs with
  | nil => rfl
  | cons v vs ih => cases v <;> simp [typedTexts, typedText, ih]

end Value

end SsaIr
