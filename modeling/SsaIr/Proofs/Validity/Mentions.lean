import SsaIr.Proofs.Module.Invariants

/-!
# Local names at any depth

Validity asks for a definition of the local names that stand as operands themselves. Names also
stand inside operations on constants. Those of parameters belong to parameters by the way they are
read, so only temporaries inside such operations can lack a definition.
-/

namespace SsaIr

namespace Value

variable {v : Value} {x : String}

/-- The value is a reference to the local name, or one stands in it at some depth. -/
def Mentions (v : Value) (x : String) : Prop := ∃ w, Occurs w v ∧ w.localName? = some x

/-- A temporary of that name stands inside an operation on constants. -/
inductive Nests (x : String) : Value → Prop
  | intro {opcode type type' : String} {vs : List Value} {w : Value} (hmem : w ∈ vs)
      (hinside : Occurs (.temp x type') w) : Nests x (.expr opcode vs type)

/-- A local name in a value is the value itself, a parameter, or a temporary further inside. -/
theorem Mentions.cases (h : v.Mentions x) :
    v.localName? = some x ∨ (∃ type, Occurs (.argument x type) v) ∨ Nests x v := by
  obtain ⟨w, hoccurs, hname⟩ := h
  cases hoccurs with
  | here => exact .inl hname
  | operand hmem hinside =>
      cases w with
      | argument name type =>
          obtain rfl := Option.some.inj hname
          exact .inr (.inl ⟨type, .operand hmem hinside⟩)
      | temp name type =>
          obtain rfl := Option.some.inj hname
          exact .inr (.inr ⟨hmem, hinside⟩)
      | _ => cases hname

theorem Nests.exists_occurs (h : Nests x v) : ∃ type, Occurs (.temp x type) v := by
  obtain ⟨hmem, hinside⟩ := h
  exact ⟨_, .operand hmem hinside⟩

end Value

namespace Function

variable {f : Function} {m : Module} {x file text : String}

/-- The local name stands in an operand or an incoming value of an instruction, at some depth. -/
def Mentions (f : Function) (x : String) : Prop :=
  ∃ i ∈ f.instructions, ∃ v ∈ i.inputs, v.Mentions x

/-- A temporary of that name stands inside an operation on constants of an instruction. -/
def Nests (f : Function) (x : String) : Prop :=
  ∃ i ∈ f.instructions, ∃ v ∈ i.inputs, v.Nests x

theorem Nests.mentions (h : f.Nests x) : f.Mentions x := by
  obtain ⟨i, hi, v, hv, hnests⟩ := h
  obtain ⟨type, hoccurs⟩ := hnests.exists_occurs
  exact ⟨i, hi, v, hv, .temp x type, hoccurs, rfl⟩

/-- In a valid function whose local names are told apart by its parameters, the names without a
definition are those of temporaries inside operations on constants that no instruction defines. -/
theorem mentions_and_undefined_iff
    (hscoped : ∀ i ∈ f.instructions, ∀ v ∈ i.inputs, v.Scoped f.parameterNames)
    (hvalid : f.validate = .ok ()) : f.Mentions x ∧ x ∉ f.definedNames ↔
      f.Nests x ∧ ∀ i ∈ f.instructions, i.result ≠ some x := by
  rw [mem_definedNames_iff]
  constructor
  · rintro ⟨⟨i, hi, v, hv, hmentions⟩, hundefined⟩
    refine ⟨?_, fun j hj hresult => hundefined (.inr ⟨j, hj, hresult⟩)⟩
    rcases hmentions.cases with hname | ⟨type, hargument⟩ | hnests
    · have huse : x ∈ i.uses := Instruction.mem_uses.2 ⟨v, hv, hname⟩
      have hdefined := (wellFormed_of_mem hvalid hi).uses_defined i hi x huse
      exact absurd (mem_definedNames_iff.1 hdefined) hundefined
    · exact absurd (.inl ((hscoped i hi v hv).argument x type hargument)) hundefined
    · exact ⟨i, hi, v, hv, hnests⟩
  · rintro ⟨hnests, hresults⟩
    refine ⟨hnests.mentions, ?_⟩
    obtain ⟨i, hi, v, hv, hnests⟩ := hnests
    obtain ⟨type, hoccurs⟩ := hnests.exists_occurs
    rintro (hparameter | ⟨j, hj, hresult⟩)
    · exact (hscoped i hi v hv).temp x type hoccurs hparameter
    · exact hresults j hj hresult

/-- In a valid function that was read, every operand and every incoming value that is a local name
itself has a definition, and every parameter mentioned at any depth is one of the function. All
local names mentioned have a definition exactly if some instruction defines every temporary that
stands inside an operation on constants. -/
theorem mentions_of_validate (hparse : Module.parse file text = .ok m) (hf : f ∈ m.functions)
    (hvalid : f.validate = .ok ()) :
    (∀ i ∈ f.instructions, ∀ v ∈ i.inputs,
      (∀ x, v.localName? = some x → x ∈ f.definedNames) ∧
        ∀ x type, Value.Occurs (.argument x type) v → x ∈ f.parameterNames) ∧
    ((∀ x, f.Mentions x → x ∈ f.definedNames) ↔
      ∀ x, f.Nests x → ∃ i ∈ f.instructions, i.result = some x) := by
  have hscoped := (Module.consistent_of_mem hparse hf).values
  have hundefined := fun x => mentions_and_undefined_iff (x := x) hscoped hvalid
  refine ⟨fun i hi v hv => ⟨fun x hname => ?_, (hscoped i hi v hv).argument⟩, ?_, ?_⟩
  · have huse : x ∈ i.uses := Instruction.mem_uses.2 ⟨v, hv, hname⟩
    exact (wellFormed_of_mem hvalid hi).uses_defined i hi x huse
  · intro hall x hnests
    by_contra hno
    push Not at hno
    obtain ⟨hmentions, hnot⟩ := (hundefined x).2 ⟨hnests, hno⟩
    exact hnot (hall x hmentions)
  · intro hall x hmentions
    by_contra hnot
    obtain ⟨hnests, hno⟩ := (hundefined x).1 ⟨hmentions, hnot⟩
    obtain ⟨i, hi, hresult⟩ := hall x hnests
    exact hno i hi hresult

/-- A text that adds up a parameter and `%m` in an operation on constants, behind another line. -/
def returnSumText (line : String) : String :=
  "define i8 @f(i8 %n) \x7b\n" ++ line ++ " ret i8 add (i8 %n, i8 %m)\n\x7d\n"

/-- The function that such a text is read as. -/
def returnSum (front : List Instruction) : Function where
  name := "f"
  returnType := "i8"
  parameters := [{ name := some "n", type := "i8" }]
  blocks :=
    [{ label := "0"
       instructions := front ++
        [{ opcode := .ret, type := some "i8"
           operands := [.expr "add" [.argument "n" "i8", .temp "m" "i8"] "i8"] }] }]

/-- The instruction that defines `%m`. -/
def increment : Instruction where
  result := some "m"
  opcode := .binary .add
  type := some "i8"
  operands := [.argument "n" "i8", .int 1 "i8"]

theorem returnSum_nests (front : List Instruction) : (returnSum front).Nests "m" := by
  have hreturn : ∃ i ∈ (returnSum front).instructions,
      .expr "add" [.argument "n" "i8", .temp "m" "i8"] "i8" ∈ i.inputs := by
    simp [returnSum, instructions, Instruction.inputs]
  obtain ⟨i, hi, hinput⟩ := hreturn
  exact ⟨i, hi, _, hinput, .intro (List.mem_cons_of_mem _ List.mem_cons_self) .here⟩

theorem eq_of_nests_returnSum (h : (returnSum [increment]).Nests x) : x = "m" := by
  obtain ⟨i, hi, v, hv, hnests⟩ := h
  have hinputs : v ∈ [.argument "n" "i8", .int 1 "i8",
      .expr "add" [.argument "n" "i8", .temp "m" "i8"] "i8"] :=
    List.mem_flatMap.2 ⟨i, hi, hv⟩
  simp only [List.mem_cons, List.not_mem_nil, or_false] at hinputs
  rcases hinputs with rfl | rfl | rfl
  · cases hnests
  · cases hnests
  · obtain ⟨hmem, hinside⟩ := hnests
    simp only [List.mem_cons, List.not_mem_nil, or_false] at hmem
    rcases hmem with rfl | rfl
    · cases hinside
    · cases hinside
      rfl

theorem mentions_of_validate_returnSum :
    Module.parse Module.anonymousFile (returnSumText " %m = add i8 %n, 1\n") =
        .ok { functions := [returnSum [increment]] } ∧
      (returnSum [increment]).validate = .ok () ∧ (returnSum [increment]).Mentions "m" ∧
        ∀ x, (returnSum [increment]).Mentions x → x ∈ (returnSum [increment]).definedNames := by
  have hparse : Module.parse Module.anonymousFile (returnSumText " %m = add i8 %n, 1\n") =
      .ok { functions := [returnSum [increment]] } := by decide +kernel
  have hvalid : (returnSum [increment]).validate = .ok () := rfl
  refine ⟨hparse, hvalid, (returnSum_nests _).mentions, ?_⟩
  refine (mentions_of_validate hparse List.mem_cons_self hvalid).2.2 fun x hnests => ?_
  obtain rfl := eq_of_nests_returnSum hnests
  exact ⟨increment, List.mem_cons_self, rfl⟩

theorem mentions_undefined_returnSum :
    Module.parse Module.anonymousFile (returnSumText "") =
        .ok { functions := [returnSum []] } ∧
      (returnSum []).validate = .ok () ∧ (returnSum []).Mentions "m" ∧
        "m" ∉ (returnSum []).definedNames :=
  ⟨by decide +kernel, rfl, (returnSum_nests _).mentions, by decide⟩

end Function

end SsaIr
