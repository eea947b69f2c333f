import Mathlib.Algebra.GroupWithZero.Nat
import SsaIr.Proofs.Graph.Failure
import SsaIr.Module.Parser

/-!
# When phis of valid modules can be eliminated

Validity finds a block for every label of a phi, but does not ask for a name of its result. So
eliminating the phis of a valid module fails with its first phi without a result, and with nothing
else.
-/

namespace SsaIr

namespace Function

variable {f g : Function} {b : Block} {phi : Instruction} {n : Nat}

/-- The label of the block with the first phi without a result, in program order. -/
def unnamedPhi? (f : Function) : Option String :=
  (f.phis.find? (·.2.result.isNone)).map (·.1.label)

theorem unnamedPhi?_eq_none_iff : f.unnamedPhi? = none ↔
    ∀ i ∈ f.instructions, i.isPhi = true → i.result.isSome = true := by
  have hphis : f.unnamedPhi? = none ↔ ∀ i ∈ f.phis.map Prod.snd, i.result.isSome = true := by
    rw [unnamedPhi?, Option.map_eq_none_iff, List.find?_eq_none, List.forall_mem_map]
    simp only [Option.isNone_iff_eq_none, Option.isSome_iff_ne_none, ne_eq]
  rw [hphis, map_snd_phis]
  simp only [List.mem_filter, and_imp]

/-- A phi whose labels name blocks cannot be replaced exactly if it has no result. -/
theorem failure?_copiesOf (hlabels : ∀ pair ∈ phi.incoming, pair.2 ∈ f.labels) :
    failure? (f.copiesOf b phi) = if phi.result.isNone then
      some (.invalid f.name (.phiWithoutResult b.label)) else none := by
  cases hresult : phi.result with
  | none =>
      rw [copiesOf, hresult]
      rfl
  | some name =>
      refine failure?_eq_none_iff.2 ?_
      simp only [copiesOf, hresult]
      refine exists_mapM_eq_ok_iff.2 fun pair hpair => ?_
      obtain ⟨index, hindex⟩ := exists_lastBlockIndex?_iff.2 (hlabels pair hpair)
      exact ⟨(index, .copy name phi.type pair.1), by rw [hindex]⟩

/-- In a valid function, the first phi without a result decides the error. -/
theorem failure?_eliminatePhis (hvalid : f.validate = .ok ()) : failure? f.eliminatePhis =
    f.unnamedPhi?.map fun label => .invalid f.name (.phiWithoutResult label) := by
  have hcopies : ∀ pair ∈ f.phis, failure? (f.copiesOf pair.1 pair.2) =
      (Option.guard (·.2.result.isNone) pair).map
        fun pair => .invalid f.name (.phiWithoutResult pair.1.label) := by
    rintro ⟨b, phi⟩ hphi
    obtain ⟨hb, hmem, -⟩ := mem_phis.1 hphi
    have hphi := mem_instructions_of_block hb hmem
    rw [failure?_copiesOf ((wellFormed_of_mem hvalid hphi).incoming_exist phi hphi)]
    cases hresult : phi.result <;> simp [Option.guard, hresult]
  calc failure? f.eliminatePhis
      = f.phis.findSome? fun pair => failure? (f.copiesOf pair.1 pair.2) := by
        rw [eliminatePhis, failure?_map, copies, failure?_map, failure?_mapM]
    _ = (f.phis.find? (·.2.result.isNone)).map
          fun pair => .invalid f.name (.phiWithoutResult pair.1.label) := by
        rw [findSome?_congr hcopies, List.find?_eq_findSome?_guard, List.map_findSome?]
        rfl
    _ = f.unnamedPhi?.map fun label => .invalid f.name (.phiWithoutResult label) := by
        rw [unnamedPhi?, Option.map_map]
        rfl

theorem eliminatePhis_of_blocks_eq_nil (h : f.blocks = []) : f.eliminatePhis = .ok (f, 0) := by
  apply eliminatePhis_of_no_phis
  · rw [labels, h]
    exact List.nodup_nil
  · rw [phis, h, List.flatMap_nil]

end Function

namespace Module

variable {f : Function} {fs : List Function} {m : Module} {n : Nat} {r : Function × Nat}

/-- The name of the first function with a phi without a result, and the label of the block with the
first one. -/
def unnamedPhi? (m : Module) : Option (String × String) :=
  m.functions.findSome? fun f => f.unnamedPhi?.map fun label => (f.name, label)

/-- Valid declarations have no phis, so all functions of a valid module are treated alike. -/
theorem count_eliminateInFunctions (hvalid : ∀ f ∈ fs, f.validate = .ok ()) :
    (eliminateInFunctions fs).2 =
      (fs.mapM Function.eliminatePhis).map fun results => (results.map Prod.snd).sum := by
  induction fs with
  | nil => rfl
  | cons f fs ih =>
      obtain ⟨hf, hfs⟩ := List.forall_mem_cons.1 hvalid
      rw [List.mapM_cons, eliminateInFunctions]
      rcases Function.validate_eq_ok_iff.1 hf with ⟨hdeclaration, hblocks⟩ | ⟨hdefinition, -⟩
      · rw [if_pos hdeclaration, Function.eliminatePhis_of_blocks_eq_nil hblocks]
        apply (ih hfs).trans
        cases fs.mapM Function.eliminatePhis with
        | error e => rfl
        | ok results => exact congrArg Except.ok (Nat.zero_add _).symm
      · rw [if_neg (by simp [hdefinition])]
        cases f.eliminatePhis with
        | error e => rfl
        | ok result =>
            apply (congrArg (Except.map (result.2 + ·)) (ih hfs)).trans
            cases fs.mapM Function.eliminatePhis <;> rfl

/-- The pass makes of a valid function the function with copies for its phis, also of a declaration,
which has no blocks. -/
theorem EliminatesTo.eq_of_validate (h : EliminatesTo f r) (hvalid : f.validate = .ok ()) :
    (f.withCopies, f.phis.length) = r := by
  have helim : f.eliminatePhis = .ok r := by
    rcases h with ⟨hdeclaration, rfl⟩ | ⟨-, hdone⟩
    · rcases Function.validate_eq_ok_iff.1 hvalid with ⟨-, hblocks⟩ | ⟨hdefinition, -⟩
      · exact Function.eliminatePhis_of_blocks_eq_nil hblocks
      · rw [hdefinition] at hdeclaration
        cases hdeclaration
    · exact Function.eliminateInPlace_eq_ok_iff.1 hdone
  obtain ⟨hg, hn⟩ :=
    Function.eq_withCopies_of_eliminatePhis (Function.nodup_labels_of_validate hvalid) helim
  exact Prod.ext hg.symm hn.symm

theorem eq_map_of_eliminateInFunctions (hvalid : ∀ f ∈ fs, f.validate = .ok ())
    (h : (eliminateInFunctions fs).2 = .ok n) :
    (eliminateInFunctions fs).1 = fs.map Function.withCopies ∧
      n = (fs.map (·.phis.length)).sum := by
  rw [← eliminateInEach_eq] at h ⊢
  have hrun : eliminateInEach fs = ((eliminateInEach fs).1, .ok n) := Prod.ext rfl h
  obtain ⟨results, hall, hfunctions, hcount⟩ := eliminateInEach_eq_ok_iff.1 hrun
  have hresults : fs.map (fun f => (f.withCopies, f.phis.length)) = results := by
    rw [← List.forall₂_eq_eq_eq, List.forall₂_map_left_iff]
    exact ((List.forall₂_and_left _ _).2 ⟨hvalid, hall⟩).imp fun f r hf => hf.2.eq_of_validate hf.1
  rw [hfunctions, hcount, ← hresults, List.map_map, List.map_map]
  exact ⟨rfl, rfl⟩

theorem unnamedPhi?_eq_none_iff : m.unnamedPhi? = none ↔
    ∀ f ∈ m.functions, ∀ i ∈ f.instructions, i.isPhi = true → i.result.isSome = true := by
  simp only [unnamedPhi?, List.findSome?_eq_none_iff, Option.map_eq_none_iff,
    Function.unnamedPhi?_eq_none_iff]

/-- In a valid module, the first phi without a result decides the error. -/
theorem failure?_eliminatePhis (hvalid : m.validate = .ok ()) : failure? m.eliminatePhis.2 =
    m.unnamedPhi?.map fun pair => .invalid pair.1 (.phiWithoutResult pair.2) := by
  have hfunctions := forM_eq_ok_iff.1 hvalid
  calc failure? m.eliminatePhis.2
      = failure? (eliminateInFunctions m.functions).2 := rfl
    _ = m.functions.findSome? fun f => failure? f.eliminatePhis := by
        rw [count_eliminateInFunctions hfunctions, failure?_map, failure?_mapM]
    _ = m.functions.findSome? fun f =>
          f.unnamedPhi?.map fun label => .invalid f.name (.phiWithoutResult label) :=
        findSome?_congr fun f hf => Function.failure?_eliminatePhis (hfunctions f hf)
    _ = m.unnamedPhi?.map fun pair => .invalid pair.1 (.phiWithoutResult pair.2) := by
        rw [unnamedPhi?, List.map_findSome?]
        simp only [Function.comp_def, Option.map_map]

/-- The phis of a valid module can be eliminated exactly if all of them have results, and then all
are counted and none is left in any function. Otherwise elimination fails with the first phi without
a result, in program order, of the first function that has one. The steps in memory leave the same
module with the same count or error. -/
theorem eliminatePhis_of_validate (hvalid : m.validate = .ok ()) :
    ((∃ n, m.eliminatePhis.2 = .ok n) ↔ ∀ f ∈ m.functions, ∀ i ∈ f.instructions,
      i.isPhi = true → i.result.isSome = true) ∧
    (∀ n, m.eliminatePhis.2 = .ok n → n = (m.functions.map (·.phis.length)).sum ∧
      ∀ f ∈ m.eliminatePhis.1.functions, ∀ i ∈ f.instructions, i.isPhi = false) ∧
    (∀ e, m.eliminatePhis.2 = .error e ↔ ∃ name label, m.unnamedPhi? = some (name, label) ∧
      e = .invalid name (.phiWithoutResult label)) ∧
    m.eliminateInPlace = m.eliminatePhis := by
  have hfailure := failure?_eliminatePhis hvalid
  refine ⟨?_, fun n hn => ?_, fun e => ?_, m.eliminateInPlace_eq⟩
  · rw [← failure?_eq_none_iff, hfailure, Option.map_eq_none_iff, unnamedPhi?_eq_none_iff]
  · obtain ⟨hleft, hcount⟩ := eq_map_of_eliminateInFunctions (forM_eq_ok_iff.1 hvalid) hn
    refine ⟨hcount, fun g (hg : g ∈ (eliminateInFunctions m.functions).1) i hi => ?_⟩
    rw [hleft] at hg
    obtain ⟨f, -, rfl⟩ := List.mem_map.1 hg
    exact Function.isPhi_of_mem_withCopies hi
  · rw [← failure?_eq_some_iff, hfailure, Option.map_eq_some_iff, Prod.exists]
    simp only [eq_comm]

/-- A text with a loop on a phi that is written behind a result, or behind nothing. -/
def countText (result : String) : String :=
  "define void @count() \x7b\na:\n br label %b\nb:\n " ++ result ++
    "phi i8 [0, %a], [1, %b]\n br label %b\n\x7d\n"

/-- The module that such a text is read as. -/
def count (result : Option String) : Module where
  functions :=
    [{ name := "count", returnType := "void"
       blocks :=
        [{ label := "a", instructions := [.branch "b"] },
         { label := "b"
           instructions :=
            [{ result := result, opcode := .phi, type := some "i8"
               incoming := [(.int 0 "i8", "a"), (.int 1 "i8", "b")] },
             .branch "b"] }] }]

theorem eliminatePhis_of_validate_count :
    parse anonymousFile (countText "%i = ") = .ok (count (some "i")) ∧
      (count (some "i")).validate = .ok () ∧ (count (some "i")).eliminateInPlace.2 = .ok 1 ∧
        ∀ f ∈ (count (some "i")).eliminateInPlace.1.functions,
          ∀ i ∈ f.instructions, i.isPhi = false := by
  have hvalid : (count (some "i")).validate = .ok () := rfl
  obtain ⟨hok, hdone, -, hmemory⟩ := eliminatePhis_of_validate hvalid
  obtain ⟨n, hn⟩ := hok.2 (by decide)
  obtain ⟨hcount, hnone⟩ := hdone n hn
  rw [hmemory]
  refine ⟨by decide +kernel, hvalid, ?_, hnone⟩
  rw [hn, hcount]
  rfl

theorem eliminatePhis_fails_count :
    parse anonymousFile (countText "") = .ok (count none) ∧ (count none).validate = .ok () ∧
      (count none).eliminatePhis.2 = .error (.invalid "count" (.phiWithoutResult "b")) :=
  ⟨by decide +kernel, rfl, rfl⟩

end Module

end SsaIr
