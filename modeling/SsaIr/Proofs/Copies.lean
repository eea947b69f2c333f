import Mathlib.Data.List.Basic
import SsaIr.Instruction

/-!
# Running copies

What a list of copies does to the values that names hold. A run over any values is the image of
one over names and constants themselves: the run that finds out, for each name, which name or
constant its value comes from.
-/

namespace SsaIr

variable {V W : Type}

/-- What an operand stands for: what its name holds, or the meaning of the constant or global. -/
def Value.eval (const : Value → V) (env : String → V) (v : Value) : V :=
  match v.localName? with
  | some name => env name
  | none => const v

/-- The name that a copy defines, and the value that it gives it. -/
def Instruction.copied? (i : Instruction) : Option (String × Value) :=
  match i.result, i.operands with
  | some name, [value] => some (name, value)
  | _, _ => none

/-- Run a copy. Other instructions change no name here. -/
def Instruction.runCopy (const : Value → V) (env : String → V) (i : Instruction) (x : String) :
    V :=
  match i.copied? with
  | some (name, value) => if x = name then value.eval const env else env x
  | none => env x

/-- Run copies one after another. -/
def runCopies (const : Value → V) (env : String → V) (copies : List Instruction) : String → V :=
  copies.foldl (Instruction.runCopy const) env

/-- The name or constant that a name's value comes from when the copies have run. -/
def origin (copies : List Instruction) : String → String ⊕ Value :=
  runCopies Sum.inr Sum.inl copies

variable {const : Value → V} {env : String → V} {copies front back : List Instruction}
variable {i : Instruction} {v : Value} {x y name : String}

theorem Value.eval_comp (h : V → W) :
    v.eval (fun v => h (const v)) (fun x => h (env x)) = h (v.eval const env) := by
  unfold Value.eval
  cases v.localName? <;> rfl

theorem Instruction.copied?_eq_some_iff :
    i.copied? = some (name, v) ↔ i.result = some name ∧ i.operands = [v] := by
  unfold Instruction.copied?
  split
  · next name' value hresult hoperands => simp [hresult, hoperands]
  · next h =>
      constructor
      · intro hsome
        cases hsome
      · rintro ⟨hresult, hoperands⟩
        exact absurd hoperands (h name v hresult)

theorem Instruction.runCopy_copy (type : Option String) :
    (Instruction.copy name type v).runCopy const env =
      fun x => if x = name then v.eval const env else env x := rfl

theorem Instruction.runCopy_comp (h : V → W) :
    i.runCopy (fun v => h (const v)) (fun x => h (env x)) = fun x => h (i.runCopy const env x) := by
  ext x
  unfold Instruction.runCopy
  cases i.copied? with
  | none => rfl
  | some copied =>
      by_cases hx : x = copied.1
      · simp only [if_pos hx, Value.eval_comp]
      · simp only [if_neg hx]

theorem Instruction.runCopy_of_not_defines (h : x ∉ i.defines) :
    i.runCopy const env x = env x := by
  unfold Instruction.runCopy
  cases hcopied : i.copied? with
  | none => rfl
  | some copied =>
      apply if_neg
      rintro rfl
      exact h (Instruction.mem_defines.2 (Instruction.copied?_eq_some_iff.1 hcopied).1)

/-- A copy that defines a name only by copying it to itself keeps its value. -/
theorem Instruction.runCopy_of_defines_imp_uses (hi : i.incoming = [])
    (h : x ∈ i.defines → x ∈ i.uses) : i.runCopy const env x = env x := by
  unfold Instruction.runCopy
  cases hcopied : i.copied? with
  | none => rfl
  | some copied =>
      obtain ⟨hresult, hoperands⟩ := Instruction.copied?_eq_some_iff.1 hcopied
      by_cases hx : x = copied.1
      · subst hx
        have huse := h (Instruction.mem_defines.2 hresult)
        simp only [Instruction.mem_uses, Instruction.inputs, hi, hoperands, List.map_nil,
          List.append_nil, List.mem_singleton, exists_eq_left] at huse
        simp only [if_true, Value.eval, huse]
      · exact if_neg hx

theorem runCopies_append :
    runCopies const env (front ++ back) = runCopies const (runCopies const env front) back :=
  List.foldl_append

theorem runCopies_cons :
    runCopies const env (i :: copies) = runCopies const (i.runCopy const env) copies := rfl

theorem runCopies_comp (h : V → W) (const : Value → V) (env : String → V)
    (copies : List Instruction) :
    runCopies (fun v => h (const v)) (fun x => h (env x)) copies =
      fun x => h (runCopies const env copies x) := by
  induction copies generalizing env with
  | nil => rfl
  | cons i copies ih => rw [runCopies_cons, runCopies_cons, Instruction.runCopy_comp, ih]

theorem runCopies_of_not_defines (h : ∀ i ∈ copies, x ∉ i.defines) :
    runCopies const env copies x = env x := by
  induction copies generalizing env with
  | nil => rfl
  | cons i copies ih =>
      obtain ⟨hi, hrest⟩ := List.forall_mem_cons.1 h
      rw [runCopies_cons, ih hrest, Instruction.runCopy_of_not_defines hi]

/-- What a name holds after the last copy to it. -/
theorem runCopies_last_copy {type : Option String} (h : ∀ i ∈ back, name ∉ i.defines) :
    runCopies const env (front ++ Instruction.copy name type v :: back) name =
      v.eval const (runCopies const env front) := by
  rw [runCopies_append, runCopies_cons, runCopies_of_not_defines h, Instruction.runCopy_copy]
  exact if_pos rfl

/-- A run over any values follows the one over names and constants. -/
theorem runCopies_eq_elim_origin :
    runCopies const env copies x = Sum.elim env const (origin copies x) :=
  congrFun (runCopies_comp (Sum.elim env const) Sum.inr Sum.inl copies) x

/-- A name keeps its value in every run exactly if its value comes from itself. -/
theorem forall_runCopies_eq_iff :
    (∀ (V : Type) (const : Value → V) (env : String → V), runCopies const env copies x = env x) ↔
      origin copies x = .inl x := by
  constructor
  · intro h
    exact h _ Sum.inr Sum.inl
  · intro h V const env
    rw [runCopies_eq_elim_origin, h, Sum.elim_inl]

/-- An operand reads the same before and behind copies, in every run, exactly if its name, if it
has one, keeps its value. -/
theorem forall_eval_runCopies_eq_iff :
    (∀ (V : Type) (const : Value → V) (env : String → V),
      v.eval const (runCopies const env copies) = v.eval const env) ↔
      ∀ x, v.localName? = some x → origin copies x = .inl x := by
  simp only [← forall_runCopies_eq_iff]
  unfold Value.eval
  cases v.localName? with
  | none => simp
  | some x => simp

/-- Copies that define a name only by copying it to itself keep its value. -/
theorem origin_eq_of_defines_imp_uses (hcopies : ∀ i ∈ copies, i.incoming = [])
    (h : ∀ i ∈ copies, x ∈ i.defines → x ∈ i.uses) : origin copies x = .inl x := by
  rw [← forall_runCopies_eq_iff]
  intro V const env
  induction copies generalizing env with
  | nil => rfl
  | cons i copies ih =>
      obtain ⟨hi, hrest⟩ := List.forall_mem_cons.1 h
      obtain ⟨hinc, hcopies⟩ := List.forall_mem_cons.1 hcopies
      rw [runCopies_cons, ih hcopies hrest, Instruction.runCopy_of_defines_imp_uses hinc hi]

end SsaIr
