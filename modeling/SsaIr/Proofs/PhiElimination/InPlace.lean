import Mathlib.Algebra.GroupWithZero.Nat
import SsaIr.Function.PhiElimination.InPlace
import SsaIr.Proofs.PhiElimination.BlockFlow

/-!
# What phi elimination leaves in memory

The steps in memory make of a function what elimination gives, so what is known of the one holds for
the other. A function is changed only once all its copies are known, so a failure leaves it as it
was. A module keeps what was done in front of the first definition that fails, and from there on
stays as it was.
-/

namespace SsaIr

namespace Function

variable {f g : Function} {n : Nat} {e : Error} {copies : List (Nat × Instruction)}

/-- Copies that are appended one by one end up behind their blocks in order. -/
theorem getElem?_blocks_foldl_append (f : Function) (block : Nat) :
    (copies.foldl (fun f c => f.append c.1 c.2) f).blocks[block]? =
      f.blocks[block]?.map fun b => { b with instructions :=
        b.instructions ++ (copies.filter (·.1 = block)).map Prod.snd } := by
  induction copies generalizing f with
  | nil => simp
  | cons c copies ih =>
      rw [List.foldl_cons, ih, append, List.getElem?_modify]
      by_cases hc : c.1 = block
      · rw [List.filter_cons_of_pos (by simpa using hc)]
        simp [hc, Block.add, Function.comp_def]
      · rw [List.filter_cons_of_neg (by simpa using hc)]
        simp [hc]

theorem foldl_append_with_blocks (f : Function) :
    copies.foldl (fun f c => f.append c.1 c.2) f =
      { f with blocks := (copies.foldl (fun f c => f.append c.1 c.2) f).blocks } := by
  induction copies generalizing f with
  | nil => rfl
  | cons c copies ih => exact ih (f.append c.1 c.2)

/-- Appending the copies and then dropping the phis replaces the phis. -/
theorem dropPhis_foldl_append (h : ∀ c ∈ copies, c.2.isPhi = false) :
    (copies.foldl (fun f c => f.append c.1 c.2) f).dropPhis = f.replacePhis copies := by
  rw [foldl_append_with_blocks, dropPhis, replacePhis]
  congr 1
  apply List.ext_getElem?
  intro block
  rw [List.getElem?_map, List.getElem?_map, getElem?_blocks_foldl_append, List.getElem?_zipIdx]
  cases f.blocks[block]? with
  | none => rfl
  | some b =>
      -- the phis are dropped behind the copies, which are none themselves
      have hkept : ((copies.filter (·.1 = block)).map Prod.snd).filter (!·.isPhi) =
          (copies.filter (·.1 = block)).map Prod.snd := by
        apply List.filter_eq_self.2
        intro i hi
        obtain ⟨c, hc, rfl⟩ := List.mem_map.1 hi
        rw [h c (List.mem_filter.1 hc).1]
        rfl
      simp [List.filter_append, hkept]

theorem run_forM_append (f : Function) :
    (copies.forM fun (block, copy) => modify fun f => f.append block copy :
      ExceptT Error (StateM Function) Unit).run.run f =
        (.ok (), copies.foldl (fun f c => f.append c.1 c.2) f) := by
  induction copies generalizing f with
  | nil => rfl
  | cons c copies ih => exact ih (f.append c.1 c.2)

/-- What the steps leave in memory is the function without its phis, or the function as it was if
they fail. -/
theorem eliminateInPlace_eq (f : Function) : f.eliminateInPlace =
    match f.eliminatePhis with
    | .ok (g, n) => (g, .ok n)
    | .error e => (f, .error e) := by
  have hget : replaceInMemory.run.run f =
      (do let copies ← MonadExcept.ofExcept f.copies
          copies.forM fun (block, copy) => modify fun f => f.append block copy
          modify dropPhis
          return f.phis.length : ExceptT Error (StateM Function) Nat).run.run f := rfl
  rw [eliminateInPlace, hget, eliminatePhis]
  cases hcopies : f.copies with
  | error e => rfl
  | ok copies =>
      have hphi : ∀ c ∈ copies, c.2.isPhi = false := by
        intro c hc
        obtain ⟨-, name, type, v, hcopy⟩ := exists_block_of_mem_copies hcopies hc
        rw [hcopy]
        rfl
      have hrun : (do
          copies.forM fun (block, copy) => modify fun f => f.append block copy
          modify dropPhis
          return f.phis.length : ExceptT Error (StateM Function) Nat).run.run f =
            (.ok f.phis.length, f.replacePhis copies) := by
        rw [ExceptT.run_bind, StateT.run_bind, run_forM_append, ← dropPhis_foldl_append hphi]
        rfl
      exact congrArg Prod.swap hrun

theorem eliminateInPlace_eq_error_iff :
    f.eliminateInPlace = (g, .error e) ↔ g = f ∧ f.eliminatePhis = .error e := by
  rw [eliminateInPlace_eq]
  cases f.eliminatePhis with
  | error e' => simp [eq_comm]
  | ok r => simp

theorem eliminateInPlace_eq_ok_iff :
    f.eliminateInPlace = (g, .ok n) ↔ f.eliminatePhis = .ok (g, n) := by
  rw [eliminateInPlace_eq]
  cases f.eliminatePhis with
  | error e => simp
  | ok r => simp [Prod.ext_iff]

/-- Where labels are distinct, the steps come to an end exactly if all phis have results and name
blocks. What is in memory then has the copies in place of the phis, and taking the steps again finds
no phis and changes nothing. -/
theorem eliminateInPlace_effect (hlabels : f.labels.Nodup) :
    ((∃ g n, f.eliminateInPlace = (g, .ok n)) ↔ f.Eliminable) ∧
    ∀ g n, f.eliminateInPlace = (g, .ok n) →
      g = { f with blocks := f.blocks.map f.withoutPhis } ∧
      n = (f.instructions.filter (·.isPhi)).length ∧
      (∀ i ∈ g.instructions, i.isPhi = false) ∧
      g.instructions.Perm (f.instructions.filter (!·.isPhi) ++
        f.phis.flatMap fun pair => pair.2.copiesForAll) ∧
      g.eliminateInPlace = (g, .ok 0) := by
  simp only [eliminateInPlace_eq_ok_iff]
  refine ⟨?_, fun g n => effect_of_eliminatePhis hlabels⟩
  rw [← exists_eliminatePhis_iff hlabels, Prod.exists]

theorem sameOutline_eliminateInPlace (f : Function) : f.SameOutline f.eliminateInPlace.1 := by
  rw [eliminateInPlace_eq]
  cases h : f.eliminatePhis with
  | error e => exact ⟨rfl, rfl, rfl⟩
  | ok result => exact sameOutline_of_eliminatePhis h

/-- Control between blocks stays as it is in memory, whether or not the steps come to an end. -/
theorem blockFlow_of_eliminateInPlace (f : Function) :
    (∀ block, f.eliminateInPlace.1.successorBlocks block = f.successorBlocks block) ∧
    (∀ block, f.eliminateInPlace.1.predecessorBlocks block = f.predecessorBlocks block) ∧
    BlockGraph.ofFunction f.eliminateInPlace.1 = BlockGraph.ofFunction f := by
  have houtline := f.sameOutline_eliminateInPlace
  exact ⟨houtline.successorBlocks, houtline.predecessorBlocks,
    BlockGraph.ofFunction_of_sameOutline houtline⟩

end Function

namespace Module

variable {f g : Function} {fs front back : List Function} {results : List (Function × Nat)}
variable {n : Nat} {e : Error}

theorem eliminateInEach_eq (fs : List Function) : eliminateInEach fs = eliminateInFunctions fs := by
  induction fs with
  | nil => rfl
  | cons f fs ih =>
      rw [eliminateInEach, eliminateInFunctions, f.eliminateInPlace_eq, ih]
      cases f.eliminatePhis <;> rfl

theorem eliminateInPlace_eq (m : Module) : m.eliminateInPlace = m.eliminatePhis := by
  rw [eliminateInPlace, eliminateInEach_eq]
  rfl

/-- What is made of a function that the pass gets through, and the phis counted for it. Declarations
are passed over, also those with blocks. -/
def EliminatesTo (f : Function) (r : Function × Nat) : Prop :=
  f.isDeclaration = true ∧ r = (f, 0) ∨
    f.isDeclaration = false ∧ f.eliminateInPlace = (r.1, .ok r.2)

theorem eliminateInEach_cons (h : EliminatesTo f (g, n)) : eliminateInEach (f :: fs) =
    (g :: (eliminateInEach fs).1, (eliminateInEach fs).2.map (n + ·)) := by
  rcases h with ⟨hf, hr⟩ | ⟨hf, hr⟩
  · obtain ⟨rfl, rfl⟩ := Prod.mk.inj hr
    rw [eliminateInEach, if_pos hf]
    cases eliminateInEach fs with
    | mk gs total => cases total <;> simp [Except.map]
  · rw [eliminateInEach, if_neg (by simp [hf]), hr]

theorem eliminateInEach_cons_error (hf : f.isDeclaration = false)
    (he : f.eliminateInPlace = (g, .error e)) : eliminateInEach (f :: fs) = (g :: fs, .error e) := by
  rw [eliminateInEach, if_neg (by simp [hf]), he]

/-- The pass gets through the functions in front and goes on behind them. -/
theorem eliminateInEach_append (h : List.Forall₂ EliminatesTo front results) :
    eliminateInEach (front ++ fs) = (results.map Prod.fst ++ (eliminateInEach fs).1,
      (eliminateInEach fs).2.map ((results.map Prod.snd).sum + ·)) := by
  induction h with
  | nil =>
      cases hfs : (eliminateInEach fs).2 with
      | error e => simp [Except.map, ← hfs]
      | ok n => simp [Except.map, ← hfs]
  | cons hf _ ih =>
      rw [List.cons_append, eliminateInEach_cons hf, ih]
      cases (eliminateInEach fs).2 with
      | error e => simp [Except.map]
      | ok n => simp [Except.map, Nat.add_assoc]

/-- The pass gets through all functions, or through those in front of a definition that fails. -/
theorem forall₂_or_split (fs : List Function) : (∃ results, List.Forall₂ EliminatesTo fs results) ∨
    ∃ front f back results e, fs = front ++ f :: back ∧ List.Forall₂ EliminatesTo front results ∧
      f.isDeclaration = false ∧ f.eliminateInPlace = (f, .error e) := by
  induction fs with
  | nil => exact .inl ⟨[], .nil⟩
  | cons f fs ih =>
      have hf : (∃ r, EliminatesTo f r) ∨
          ∃ e, f.isDeclaration = false ∧ f.eliminateInPlace = (f, .error e) := by
        cases hdecl : f.isDeclaration with
        | true => exact .inl ⟨_, .inl ⟨hdecl, rfl⟩⟩
        | false =>
            cases helim : f.eliminatePhis with
            | ok r =>
                exact .inl ⟨r, .inr ⟨hdecl, Function.eliminateInPlace_eq_ok_iff.2 helim⟩⟩
            | error e =>
                exact .inr ⟨e, rfl, Function.eliminateInPlace_eq_error_iff.2 ⟨rfl, helim⟩⟩
      obtain ⟨r, hr⟩ | ⟨e, hdecl, he⟩ := hf
      · obtain ⟨results, h⟩ | ⟨front, f', back, results, e, rfl, h, hfail⟩ := ih
        · exact .inl ⟨r :: results, .cons hr h⟩
        · exact .inr ⟨f :: front, f', back, r :: results, e, rfl, .cons hr h, hfail⟩
      · exact .inr ⟨[], f, fs, [], e, rfl, .nil, hdecl, he⟩

theorem eliminateInEach_eq_ok_iff {gs : List Function} : eliminateInEach fs = (gs, .ok n) ↔
    ∃ results, List.Forall₂ EliminatesTo fs results ∧ gs = results.map Prod.fst ∧
      n = (results.map Prod.snd).sum := by
  have hall : ∀ results, List.Forall₂ EliminatesTo fs results →
      eliminateInEach fs = (results.map Prod.fst, .ok (results.map Prod.snd).sum) := by
    intro results h
    have happend : eliminateInEach (fs ++ []) = _ := eliminateInEach_append h
    simpa [eliminateInEach, Except.map] using happend
  constructor
  · intro heq
    obtain ⟨results, h⟩ | ⟨front, f, back, results, e, rfl, h, hdecl, he⟩ := forall₂_or_split fs
    · obtain ⟨rfl, hn⟩ := Prod.mk.inj (heq.symm.trans (hall results h))
      exact ⟨results, h, rfl, Except.ok.inj hn⟩
    · rw [eliminateInEach_append h, eliminateInEach_cons_error hdecl he] at heq
      cases (Prod.mk.inj heq).2
  · rintro ⟨results, h, rfl, rfl⟩
    exact hall results h

theorem eliminateInEach_eq_error_iff {gs : List Function} : eliminateInEach fs = (gs, .error e) ↔
    ∃ front f back results, fs = front ++ f :: back ∧ List.Forall₂ EliminatesTo front results ∧
      f.isDeclaration = false ∧ f.eliminateInPlace = (f, .error e) ∧
        gs = results.map Prod.fst ++ f :: back := by
  have hstop : ∀ {front f back results e}, fs = front ++ f :: back →
      List.Forall₂ EliminatesTo front results → f.isDeclaration = false →
        f.eliminateInPlace = (f, .error e) →
          eliminateInEach fs = (results.map Prod.fst ++ f :: back, .error e) := by
    rintro front f back results e rfl h hdecl he
    rw [eliminateInEach_append h, eliminateInEach_cons_error hdecl he]
    rfl
  constructor
  · intro heq
    obtain ⟨results, h⟩ | ⟨front, f, back, results, e', hfs, h, hdecl, he⟩ := forall₂_or_split fs
    · cases heq.symm.trans (eliminateInEach_eq_ok_iff.2 ⟨results, h, rfl, rfl⟩)
    · obtain ⟨rfl, hn⟩ := Prod.mk.inj (heq.symm.trans (hstop hfs h hdecl he))
      obtain rfl := Except.error.inj hn
      exact ⟨front, f, back, results, hfs, h, hdecl, he, rfl⟩
  · rintro ⟨front, f, back, results, hfs, h, hdecl, he, rfl⟩
    exact hstop hfs h hdecl he

theorem eliminateInPlace_eq_iff {m m' : Module} {total : Except Error Nat} :
    m.eliminateInPlace = (m', total) ↔
      ∃ functions, eliminateInEach m.functions = (functions, total) ∧ m' = { m with functions } := by
  rw [eliminateInPlace]
  constructor
  · intro h
    obtain ⟨rfl, rfl⟩ := Prod.mk.inj h
    exact ⟨_, rfl, rfl⟩
  · rintro ⟨functions, h, rfl⟩
    rw [h]

/-- A function whose phis cannot be eliminated is as it was, and otherwise it is what its elimination
gives. A module fails with the error of its first definition that fails: the functions in front of
it are what their elimination makes of them, and everything else is as it was. Otherwise every
definition is what its elimination gives, and the count is the sum of theirs. -/
theorem eliminateInPlace_outcome (m : Module) :
    (∀ f g e, Function.eliminateInPlace f = (g, .error e) ↔ g = f ∧ f.eliminatePhis = .error e) ∧
    (∀ f g n, Function.eliminateInPlace f = (g, .ok n) ↔ f.eliminatePhis = .ok (g, n)) ∧
    (∀ m' e, m.eliminateInPlace = (m', .error e) ↔ ∃ front f back results,
      m.functions = front ++ f :: back ∧ List.Forall₂ EliminatesTo front results ∧
        f.isDeclaration = false ∧ f.eliminateInPlace = (f, .error e) ∧
          m' = { m with functions := results.map Prod.fst ++ f :: back }) ∧
    (∀ m' n, m.eliminateInPlace = (m', .ok n) ↔ ∃ results,
      List.Forall₂ EliminatesTo m.functions results ∧
        m' = { m with functions := results.map Prod.fst } ∧ n = (results.map Prod.snd).sum) := by
  refine ⟨fun _ _ _ => Function.eliminateInPlace_eq_error_iff,
    fun _ _ _ => Function.eliminateInPlace_eq_ok_iff, fun m' e => ?_, fun m' n => ?_⟩
  · rw [eliminateInPlace_eq_iff]
    constructor
    · rintro ⟨functions, h, rfl⟩
      obtain ⟨front, f, back, results, hfs, hall, hdecl, hf, rfl⟩ := eliminateInEach_eq_error_iff.1 h
      exact ⟨front, f, back, results, hfs, hall, hdecl, hf, rfl⟩
    · rintro ⟨front, f, back, results, hfs, hall, hdecl, hf, rfl⟩
      have h := eliminateInEach_eq_error_iff.2 ⟨front, f, back, results, hfs, hall, hdecl, hf, rfl⟩
      exact ⟨_, h, rfl⟩
  · rw [eliminateInPlace_eq_iff]
    constructor
    · rintro ⟨functions, h, rfl⟩
      obtain ⟨results, hall, rfl, hsum⟩ := eliminateInEach_eq_ok_iff.1 h
      exact ⟨results, hall, rfl, hsum⟩
    · rintro ⟨results, hall, rfl, hsum⟩
      exact ⟨_, eliminateInEach_eq_ok_iff.2 ⟨results, hall, rfl, hsum⟩, rfl⟩

/-- A function of one block that goes on to itself, with a phi of a value from a label. -/
def turnstile (name label : String) (isDeclaration : Bool) : Function where
  name := name
  returnType := "void"
  isDeclaration := isDeclaration
  blocks :=
    [{ label := "spin"
       instructions :=
        [{ result := some "x", opcode := .phi, type := some "i32", incoming := [(.int 0 "i32", label)] },
         .branch "spin"] }]

/-- A declaration with a phi that could not be eliminated, and three definitions. The second one has
such a phi as well. -/
def halfway : Module where
  functions :=
    [turnstile "outside" "nowhere" true, turnstile "first" "spin" false,
      turnstile "second" "nowhere" false, turnstile "third" "spin" false]

theorem eliminateInPlace_outcome_halfway : ∃ m : Module,
    halfway.eliminateInPlace = (m, .error (.unresolvedLabel "second" "nowhere")) ∧
      m.functions.map (fun f => f.phis.length) = [1, 0, 1, 1] := by
  obtain ⟨-, hdone, hstop, -⟩ := eliminateInPlace_outcome halfway
  obtain ⟨g, hg, hphis⟩ : ∃ g, (turnstile "first" "spin" false).eliminatePhis = .ok (g, 1) ∧
      g.phis.length = 0 := ⟨_, rfl, rfl⟩
  let front := [turnstile "outside" "nowhere" true, turnstile "first" "spin" false]
  let results := [(turnstile "outside" "nowhere" true, 0), (g, 1)]
  have hall : List.Forall₂ EliminatesTo front results :=
    .cons (.inl ⟨rfl, rfl⟩) (.cons (.inr ⟨rfl, (hdone _ _ _).2 hg⟩) .nil)
  refine ⟨{ functions := results.map Prod.fst ++
    [turnstile "second" "nowhere" false, turnstile "third" "spin" false] }, ?_, ?_⟩
  · exact (hstop _ _).2 ⟨front, _, _, results, rfl, hall, rfl, rfl, rfl⟩
  · change [1, g.phis.length, 1, 1] = _
    rw [hphis]

end Module

end SsaIr
