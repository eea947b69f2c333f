import SsaIr.Proofs.Builder.Session
import SsaIr.Proofs.Validity

/-!
# Whether temporaries are fresh

A builder names results by counting, and does not look at the names it is given for parameters and
copies. So a new temporary differs from all earlier ones, but can have the name of a parameter or a
copy.
-/

namespace SsaIr

namespace Function

variable {f : Function} {name : String}

/-- The names of the parameters and then those of the copies. -/
def givenNames (f : Function) : List String :=
  f.parameterNames ++ (f.instructions.filter (·.opcode = .copy)).filterMap Instruction.result

theorem mem_givenNames_iff : name ∈ f.givenNames ↔
    name ∈ f.parameterNames ∨ ∃ i ∈ f.instructions, i.opcode = .copy ∧ i.result = some name := by
  simp [givenNames, and_assoc]

end Function

namespace Builder

variable {b b' : Builder} {c : Call} {r : Except Error Reply} {f f' : Function} {i : Instruction}
variable {name type : String} {calls : List Call}

/-- The name that a call gives to a parameter or a copy. -/
def Call.givenName? : Call → Option String
  | .addParameter name _ | .copy name _ => some name
  | _ => none

/-! ## One call -/

/-- An instruction stands there before a call, or is the one that the call builds. -/
theorem Effect.instruction_cases (h : Effect b c b' r) (hf' : b'.function = some f')
    (hi : i ∈ f'.instructions) : c.instruction? (toString b.nextTemp) = some i ∨
      b.nextTemp ≤ b'.nextTemp ∧ ∃ f, b.function = some f ∧ i ∈ f.instructions := by
  cases h with
  | failed hn => exact .inr ⟨hn, f', hf', hi⟩
  | newTemp => exact .inr ⟨Nat.le_succ _, f', hf', hi⟩
  | createFunction =>
      cases hf'
      cases hi
  | addParameter hf =>
      cases hf'
      exact .inr ⟨Nat.le_refl _, _, hf, hi⟩
  | createBlock hf hlabel =>
      cases hf'
      refine .inr ⟨Nat.le_refl _, _, hf, ?_⟩
      simpa [Function.instructions, Function.addBlock] using hi
  | built hbuilt hf hpoint hindex hn hreply =>
      cases hf'
      -- The call changes one block, by an instruction at its end.
      obtain ⟨block, hblock, hi⟩ := List.mem_flatMap.1 hi
      rcases mem_modify_add hblock with hbefore | ⟨before, hbefore, rfl⟩
      · exact .inr ⟨hn, _, hf, List.mem_flatMap.2 ⟨block, hbefore, hi⟩⟩
      · rcases List.mem_append.1 hi with hi | hi
        · exact .inr ⟨hn, _, hf, List.mem_flatMap.2 ⟨before, hbefore, hi⟩⟩
        · obtain rfl := List.mem_singleton.1 hi
          exact .inl hbuilt
  | finish => cases hf'
  | _ => exact .inr ⟨Nat.le_refl _, f', hf', hi⟩

/-- A parameter is there before a call, or is the one that the call adds. -/
theorem Effect.parameter_cases (h : Effect b c b' r) (hf' : b'.function = some f')
    (hname : name ∈ f'.parameterNames) : c.givenName? = some name ∨
      ∃ f, b.function = some f ∧ name ∈ f.parameterNames := by
  cases h with
  | createFunction =>
      cases hf'
      cases hname
  | addParameter hf =>
      cases hf'
      rw [Function.parameterNames, List.filterMap_append, List.mem_append] at hname
      rcases hname with hname | hname
      · exact .inr ⟨_, hf, hname⟩
      · obtain rfl := List.mem_singleton.1 hname
        exact .inl rfl
  | createBlock hf hlabel =>
      cases hf'
      exact .inr ⟨_, hf, hname⟩
  | built hbuilt hf hpoint hindex hn hreply =>
      cases hf'
      exact .inr ⟨_, hf, hname⟩
  | finish => cases hf'
  | _ => exact .inr ⟨f', hf', hname⟩

theorem Call.givenName?_of_copy (hi : c.instruction? name = some i) (hcopy : i.opcode = .copy) :
    c.givenName? = i.result := by
  cases c with
  | copy target value =>
      cases hi
      rfl
  | ret value => cases value <;> (cases hi; cases hcopy)
  | _ => cases hi <;> cases hcopy

/-- A given name was given before a call, or is given by the call. -/
theorem Effect.givenNames_cases (h : Effect b c b' r) (hf' : b'.function = some f')
    (hname : name ∈ f'.givenNames) : c.givenName? = some name ∨
      ∃ f, b.function = some f ∧ name ∈ f.givenNames := by
  rcases Function.mem_givenNames_iff.1 hname with hparameter | ⟨i, hi, hcopy, hresult⟩
  · refine (h.parameter_cases hf' hparameter).imp_right ?_
    rintro ⟨f, hf, hparameter⟩
    exact ⟨f, hf, Function.mem_givenNames_iff.2 (.inl hparameter)⟩
  · rcases h.instruction_cases hf' hi with hbuilt | ⟨-, f, hf, hi⟩
    · exact .inl ((Call.givenName?_of_copy hbuilt hcopy).trans hresult)
    · exact .inr ⟨f, hf, Function.mem_givenNames_iff.2 (.inr ⟨i, hi, hcopy, hresult⟩)⟩

theorem nextTemp_add (b : Builder) (i : Instruction) : (b.add i).1.nextTemp = b.nextTemp := by
  obtain ⟨e, hadd⟩ | ⟨f, index, -, -, -, hadd⟩ := b.add_cases i
  · rw [hadd]
  · rw [hadd]

/-- An instruction with a result that is no copy is added behind taking a number for it. -/
theorem run_of_instruction? (hi : c.instruction? (toString b.nextTemp) = some i)
    (hcopy : i.opcode ≠ .copy) (hresult : i.result = some name) :
    name = toString b.nextTemp ∧ (b.run c).1 = (b.newTemp.1.add i).1 := by
  cases c with
  | binary | icmp | load | alloca | getElementPtr | phi =>
      cases hi
      exact ⟨(Option.some.inj hresult).symm, rfl⟩
  | call callee arguments type =>
      cases hi
      by_cases hvoid : type = TypeToken.void
      · rw [if_pos hvoid] at hresult
        cases hresult
      · rw [if_neg hvoid] at hresult
        refine ⟨(Option.some.inj hresult).symm, ?_⟩
        rw [run, call, if_neg hvoid, if_neg hvoid]
        rfl
  | copy =>
      cases hi
      exact absurd rfl hcopy
  | ret value => cases value <;> (cases hi; cases hresult)
  | _ => cases hi <;> cases hresult

/-! ## Sessions -/

/-- Every result that no copy has is a number taken before. -/
def Numbered (b : Builder) : Prop :=
  ∀ f, b.function = some f → ∀ i ∈ f.instructions, i.opcode ≠ .copy →
    ∀ name, i.result = some name → ∃ n < b.nextTemp, name = toString n

theorem Numbered.run (hb : b.Numbered) (c : Call) : (b.run c).1.Numbered := by
  intro f' hf' i hi hcopy name hresult
  rcases (b.run_effect c).instruction_cases hf' hi with hbuilt | ⟨hn, f, hf, hi⟩
  · obtain ⟨hname, hrun⟩ := run_of_instruction? hbuilt hcopy hresult
    have hnext : (b.run c).1.nextTemp = b.nextTemp + 1 := by
      rw [hrun, nextTemp_add]
      rfl
    exact ⟨b.nextTemp, by omega, hname⟩
  · obtain ⟨n, hlt, hname⟩ := hb f hf i hi hcopy name hresult
    exact ⟨n, by omega, hname⟩

theorem Numbered.runAll (hb : b.Numbered) (calls : List Call) : (b.runAll calls).1.Numbered := by
  induction calls generalizing b with
  | nil => exact hb
  | cons c calls ih => exact ih (hb.run c)

theorem numbered_after (calls : List Call) : (after calls).Numbered :=
  Numbered.runAll (by rintro f ⟨⟩) calls

/-- Given names are given by some call. -/
theorem givenNames_runAll (hf' : (b.runAll calls).1.function = some f')
    (hname : name ∈ f'.givenNames) : (∃ c ∈ calls, c.givenName? = some name) ∨
      ∃ f, b.function = some f ∧ name ∈ f.givenNames := by
  induction calls generalizing b with
  | nil => exact .inr ⟨f', hf', hname⟩
  | cons c calls ih =>
      rcases ih hf' with ⟨call, hcall, hgiven⟩ | ⟨f, hf, hname⟩
      · exact .inl ⟨call, List.mem_cons_of_mem c hcall, hgiven⟩
      · refine ((b.run_effect c).givenNames_cases hf hname).imp_left fun hgiven => ?_
        exact ⟨c, List.mem_cons_self, hgiven⟩

/-- A number that is not taken yet is the name only of what was given it. -/
theorem Numbered.mem_definedNames_iff (hb : b.Numbered) (hf : b.function = some f) :
    toString b.nextTemp ∈ f.definedNames ↔ toString b.nextTemp ∈ f.givenNames := by
  rw [Function.mem_definedNames_iff, Function.mem_givenNames_iff]
  refine or_congr_right ⟨?_, fun ⟨i, hi, _, hresult⟩ => ⟨i, hi, hresult⟩⟩
  rintro ⟨i, hi, hresult⟩
  by_cases hcopy : i.opcode = .copy
  · exact ⟨i, hi, hcopy, hresult⟩
  · obtain ⟨n, hn, hname⟩ := hb f hf i hi hcopy _ hresult
    have heq := toString_injective hname
    omega

theorem Effect.exists_function (h : Effect b c b' (.ok (.value (.temp name type)))) :
    ∃ f, b.function = some f := by
  cases h with
  | built hbuilt hf => exact ⟨_, hf⟩

/-- A call after any others that gives the value of a temporary names it by the next number. No
parameter and no result of the function has had that name, unless a parameter or a copy was given
it, which only calls that name it can do. -/
theorem temporary_fresh_iff (calls : List Call) (c : Call) (name type : String)
    (h : ((after calls).run c).2 = .ok (.value (.temp name type))) :
    name = toString (after calls).nextTemp ∧ ∃ f, (after calls).function = some f ∧
      (name ∉ f.definedNames ↔ name ∉ f.givenNames) ∧
      ((∀ call ∈ calls, call.givenName? ≠ some name) → name ∉ f.definedNames) := by
  have heffect := (after calls).run_effect c
  rw [h] at heffect
  obtain ⟨rfl, -⟩ := heffect.temporary? rfl
  obtain ⟨f, hf⟩ := heffect.exists_function
  have hiff := (numbered_after calls).mem_definedNames_iff hf
  refine ⟨rfl, f, hf, not_congr hiff, fun hcalls hdefined => ?_⟩
  rcases givenNames_runAll hf (hiff.1 hdefined) with ⟨call, hcall, hgiven⟩ | ⟨_, hnone, -⟩
  · exact hcalls call hcall hgiven
  · cases hnone

/-- A session that gives names to a parameter and a copy, and adds them up. -/
def sumCalls (parameter copy : String) : List Call :=
  [.createFunction "f" "i8", .addParameter parameter "i8", .createBlock "entry",
    .copy copy (.argument parameter "i8"),
    .binary .add (.argument parameter "i8") (.temp copy "i8") "i8"]

/-- A comparison of the sum. -/
def compareSum : Call := .icmp .eq (.temp "0" "i8") (.int 0 "i8")

theorem temporary_fresh_iff_sumCalls :
    ((after (sumCalls "n" "x")).run compareSum).2 = .ok (.value (.temp "1" "i1")) ∧
      ∃ f, (after (sumCalls "n" "x")).function = some f ∧ f.definedNames = ["n", "x", "0"] ∧
        "1" ∉ f.definedNames := by
  have hreply : ((after (sumCalls "n" "x")).run compareSum).2 =
      .ok (.value (.temp "1" "i1")) := by decide
  obtain ⟨-, f, hf, -, hfresh⟩ := temporary_fresh_iff _ _ _ _ hreply
  refine ⟨hreply, f, hf, ?_, hfresh (by decide)⟩
  cases hf
  rfl

/-- A number that a parameter or a copy has for a name is given to a temporary as well. -/
theorem temporary_repeats_sumCalls :
    (((after (sumCalls "1" "x")).run compareSum).2 = .ok (.value (.temp "1" "i1")) ∧
      ∃ f ∈ (after (sumCalls "1" "x")).function, "1" ∈ f.parameterNames) ∧
    ((after (sumCalls "n" "1")).run compareSum).2 = .ok (.value (.temp "1" "i1")) ∧
      ∃ f ∈ (after (sumCalls "n" "1")).function, ∃ i ∈ f.instructions, i.result = some "1" := by
  decide

end Builder

end SsaIr
