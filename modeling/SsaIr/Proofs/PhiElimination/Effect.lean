import Mathlib.Data.Multiset.Bind
import SsaIr.Proofs.PhiElimination

/-!
# What eliminating phis does to a function

Where labels are distinct, eliminating phis succeeds exactly if phis have results and name blocks. It
then drops the phis and puts one copy for each of their incoming pairs behind the block that the
pair names, and nothing else changes; doing it again changes nothing.
-/

namespace SsaIr

/-- The copies for all incoming pairs of a phi, in order. -/
def Instruction.copiesForAll (phi : Instruction) : List Instruction :=
  match phi.result with
  | none => []
  | some name => phi.incoming.map fun pair => Instruction.copy name phi.type pair.1

/-- Where a list of distinct keys has all those of the entries, sorting the entries by key keeps
them. -/
theorem flatMap_filter_perm {α : Type} {keys : List String} {key : α → String} {as : List α}
    (hkeys : keys.Nodup) (hall : ∀ a ∈ as, key a ∈ keys) :
    (keys.flatMap fun k => as.filter (key · = k)).Perm as := by
  induction as with
  | nil => simp
  | cons a as ih =>
      obtain ⟨ha, has⟩ := List.forall_mem_cons.1 hall
      obtain ⟨front, back, rfl⟩ := List.append_of_mem ha
      rw [List.nodup_middle, List.nodup_cons, List.mem_append, not_or] at hkeys
      have hskip : ∀ ks : List String, key a ∉ ks →
          ks.flatMap (fun k => (a :: as).filter (key · = k)) =
            ks.flatMap (fun k => as.filter (key · = k)) := by
        intro ks hks
        refine List.flatMap_congr fun k hk => List.filter_cons_of_neg ?_
        rw [decide_eq_true_eq]
        rintro rfl
        exact hks hk
      have hhere : (a :: as).filter (key · = key a) = a :: as.filter (key · = key a) :=
        List.filter_cons_of_pos (by simp)
      rw [List.flatMap_append, List.flatMap_cons, hskip front hkeys.1.1, hskip back hkeys.1.2,
        hhere]
      have ih := ih has
      rw [List.flatMap_append, List.flatMap_cons] at ih
      exact List.perm_middle.trans (ih.cons a)

/-- Blocks with distinct labels together get one copy for each incoming pair of a phi. -/
theorem Instruction.flatMap_copiesTo_perm {phi : Instruction} {labels : List String}
    (hlabels : labels.Nodup) (h : ∀ pair ∈ phi.incoming, pair.2 ∈ labels) :
    (labels.flatMap phi.copiesTo).Perm phi.copiesForAll := by
  unfold copiesTo copiesForAll
  cases phi.result with
  | none => simp
  | some name =>
      have hperm := (flatMap_filter_perm hlabels h).map fun pair => copy name phi.type pair.1
      rwa [List.map_flatMap] at hperm

namespace Function

variable {f g : Function} {b : Block} {i : Instruction} {n : Nat}

/-- The function without its phis and with the copies for them. -/
def withCopies (f : Function) : Function := { f with blocks := f.blocks.map f.withoutPhis }

@[simp] theorem labels_withCopies (f : Function) : f.withCopies.labels = f.labels := by
  simp [withCopies, labels, withoutPhis, Function.comp_def]

theorem isPhi_of_mem_withoutPhis (h : i ∈ (f.withoutPhis b).instructions) : i.isPhi = false := by
  rcases List.mem_append.1 h with h | h
  · simpa using (List.mem_filter.1 h).2
  · obtain ⟨-, -, phi, name, v, -, rfl⟩ := mem_copiesTo_iff.1 h
    rfl

theorem phis_withCopies (f : Function) : f.withCopies.phis = [] := by
  rw [List.eq_nil_iff_forall_not_mem]
  rintro ⟨b, phi⟩ h
  obtain ⟨hb, hphi, hisPhi⟩ := mem_phis.1 h
  obtain ⟨b, -, rfl⟩ := List.mem_map.1 hb
  rw [isPhi_of_mem_withoutPhis hphi] at hisPhi
  cases hisPhi

theorem isPhi_of_mem_withCopies (h : i ∈ f.withCopies.instructions) : i.isPhi = false := by
  obtain ⟨b, hb, hi⟩ := List.mem_flatMap.1 h
  obtain ⟨b, -, rfl⟩ := List.mem_map.1 hb
  exact isPhi_of_mem_withoutPhis hi

/-- A function without phis stays as it is. -/
theorem eliminatePhis_of_no_phis (hlabels : f.labels.Nodup) (h : f.phis = []) :
    f.eliminatePhis = .ok (f, 0) := by
  have hno : ∀ b ∈ f.blocks, ∀ i ∈ b.instructions, i.isPhi = false := by
    intro b hb i hi
    rw [Bool.eq_false_iff]
    intro hphi
    have hmem := mem_phis.2 ⟨hb, hi, hphi⟩
    rw [h] at hmem
    cases hmem
  have hnone : ∀ i ∈ f.instructions, i.isPhi ≠ true := by
    intro i hi
    obtain ⟨b, hb, hi⟩ := List.mem_flatMap.1 hi
    rw [hno b hb i hi]
    exact Bool.false_ne_true
  have hsame : f.blocks.map f.withoutPhis = f.blocks := by
    refine (List.map_congr_left fun b hb => ?_).trans (List.map_id _)
    have hfilter : b.instructions.filter (!·.isPhi) = b.instructions :=
      List.filter_eq_self.2 fun i hi => by rw [hno b hb i hi]; rfl
    rw [withoutPhis, copiesTo, h, hfilter, List.flatMap_nil, List.append_nil]
    rfl
  have helim : f.Eliminable := ⟨fun i hi hphi => absurd hphi (hnone i hi),
    fun i hi hphi => absurd hphi (hnone i hi)⟩
  rw [helim.eliminatePhis_eq hlabels, hsame, h]
  rfl

/-- All blocks together get one copy for each incoming pair of each phi. -/
theorem Eliminable.flatMap_copiesTo_perm (h : f.Eliminable) (hlabels : f.labels.Nodup) :
    (f.labels.flatMap f.copiesTo).Perm (f.phis.flatMap fun pair => pair.2.copiesForAll) := by
  have hswap : (f.labels.flatMap f.copiesTo).Perm
      (f.phis.flatMap fun pair => f.labels.flatMap pair.2.copiesTo) := by
    rw [← Multiset.coe_eq_coe]
    simp only [← Multiset.coe_bind, copiesTo]
    exact Multiset.bind_bind _ _
  refine hswap.trans (List.Perm.flatMap_left _ fun pair hpair => ?_)
  obtain ⟨hb, hmem, hphi⟩ := mem_phis.1 hpair
  exact Instruction.flatMap_copiesTo_perm hlabels
    (h.incoming_exist pair.2 (mem_instructions_of_block hb hmem) hphi)

/-- Only functions all of whose phis have results and name blocks lose their phis. -/
theorem eliminable_of_eliminatePhis (h : f.eliminatePhis = .ok (g, n)) : f.Eliminable := by
  obtain ⟨copies, hcopies, -⟩ := map_eq_ok_iff.1 h
  obtain ⟨groups, hgroups, -⟩ := map_eq_ok_iff.1 hcopies
  have hall : ∀ i ∈ f.instructions, i.isPhi = true →
      ∃ name, i.result = some name ∧ ∀ pair ∈ i.incoming, pair.2 ∈ f.labels := by
    intro i hi hphi
    obtain ⟨b, hb, hmem⟩ := List.mem_flatMap.1 hi
    obtain ⟨group, -, hgroup⟩ := exists_result_of_mem hgroups (mem_phis.2 ⟨hb, hmem, hphi⟩)
    obtain ⟨name, hname, hpairs⟩ := copiesOf_eq_ok_iff.1 hgroup
    refine ⟨name, hname, fun pair hpair => ?_⟩
    obtain ⟨c, -, hc⟩ := exists_right_of_forall₂ hpairs hpair
    exact exists_lastBlockIndex?_iff.1 ⟨_, hc.1⟩
  constructor
  · intro i hi hphi
    obtain ⟨name, hname, -⟩ := hall i hi hphi
    rw [hname]
    rfl
  · intro i hi hphi
    obtain ⟨name, -, hlabels⟩ := hall i hi hphi
    exact hlabels

/-- The instructions afterwards are those that are no phis and the copies. -/
theorem Eliminable.instructions_withCopies_perm (h : f.Eliminable) (hlabels : f.labels.Nodup) :
    f.withCopies.instructions.Perm (f.instructions.filter (!·.isPhi) ++
      f.phis.flatMap fun pair => pair.2.copiesForAll) := by
  have hother : f.instructions.filter (!·.isPhi) =
      f.blocks.flatMap fun b => b.instructions.filter (!·.isPhi) := List.filter_flatMap
  have hcopies : f.labels.flatMap f.copiesTo = f.blocks.flatMap fun b => f.copiesTo b.label :=
    List.flatMap_map _ _ _
  have hblocks : f.withCopies.instructions = f.blocks.flatMap fun b =>
      b.instructions.filter (!·.isPhi) ++ f.copiesTo b.label := List.flatMap_map _ _ _
  rw [hother, hblocks]
  refine (List.flatMap_append_perm _ _ _).symm.trans (List.Perm.append_left _ ?_)
  rw [← hcopies]
  exact h.flatMap_copiesTo_perm hlabels

theorem exists_eliminatePhis_iff (hlabels : f.labels.Nodup) :
    (∃ result, f.eliminatePhis = .ok result) ↔ f.Eliminable := by
  constructor
  · rintro ⟨⟨g, n⟩, h⟩
    exact eliminable_of_eliminatePhis h
  · exact fun h => ⟨_, h.eliminatePhis_eq hlabels⟩

theorem eq_withCopies_of_eliminatePhis (hlabels : f.labels.Nodup)
    (h : f.eliminatePhis = .ok (g, n)) : g = f.withCopies ∧ n = f.phis.length := by
  have helim := eliminable_of_eliminatePhis h
  exact Prod.mk.inj (Except.ok.inj (h.symm.trans (helim.eliminatePhis_eq hlabels)))

/-- What has become of a function that has lost its phis. -/
theorem effect_of_eliminatePhis (hlabels : f.labels.Nodup) (h : f.eliminatePhis = .ok (g, n)) :
    g = { f with blocks := f.blocks.map f.withoutPhis } ∧
      n = (f.instructions.filter (·.isPhi)).length ∧
      (∀ i ∈ g.instructions, i.isPhi = false) ∧
      g.instructions.Perm (f.instructions.filter (!·.isPhi) ++
        f.phis.flatMap fun pair => pair.2.copiesForAll) ∧
      g.eliminatePhis = .ok (g, 0) := by
  have helim := eliminable_of_eliminatePhis h
  obtain ⟨rfl, rfl⟩ := eq_withCopies_of_eliminatePhis hlabels h
  refine ⟨rfl, ?_, fun i => isPhi_of_mem_withCopies, helim.instructions_withCopies_perm hlabels,
    eliminatePhis_of_no_phis (f.labels_withCopies ▸ hlabels) f.phis_withCopies⟩
  rw [← map_snd_phis, List.length_map]

/-- Where labels are distinct, phis can be eliminated exactly if they all have results and name
blocks. Each block then keeps its other instructions in order, with the copies for the incoming
pairs that name it behind them, phi after phi; nothing else changes, and the count is that of the
phis. So no phi is left, the instructions are the others and one copy for each incoming pair, and
eliminating phis again finds none and changes nothing. -/
theorem eliminatePhis_effect (hlabels : f.labels.Nodup) :
    ((∃ result, f.eliminatePhis = .ok result) ↔ f.Eliminable) ∧
    ∀ g n, f.eliminatePhis = .ok (g, n) →
      g = { f with blocks := f.blocks.map f.withoutPhis } ∧
      n = (f.instructions.filter (·.isPhi)).length ∧
      (∀ i ∈ g.instructions, i.isPhi = false) ∧
      g.instructions.Perm (f.instructions.filter (!·.isPhi) ++
        f.phis.flatMap fun pair => pair.2.copiesForAll) ∧
      g.eliminatePhis = .ok (g, 0) :=
  ⟨exists_eliminatePhis_iff hlabels, fun _ _ => effect_of_eliminatePhis hlabels⟩

/-- A loop on one block, with a phi between other instructions that lists the loop twice. -/
def spin : Function where
  name := "spin"
  returnType := "void"
  blocks :=
    [{ label := "entry", instructions := [.branch "loop"] },
     { label := "loop"
       instructions :=
        [{ result := some "y", opcode := .binary .add, type := some "i32"
           operands := [.int 1 "i32", .int 2 "i32"] },
         { result := some "x", opcode := .phi, type := some "i32"
           incoming := [(.int 0 "i32", "entry"), (.temp "x" "i32", "loop"),
             (.temp "y" "i32", "loop")] },
         .branch "loop"] }]

theorem eliminatePhis_effect_spin : spin.labels.Nodup ∧ ∃ g, spin.eliminatePhis = .ok (g, 1) ∧
    g.blocks.map Block.results = [["x"], ["y", "x", "x"]] ∧ g.eliminatePhis = .ok (g, 0) := by
  have hlabels : spin.labels.Nodup := by decide
  obtain ⟨hiff, heffect⟩ := eliminatePhis_effect hlabels
  obtain ⟨⟨g, n⟩, h⟩ := hiff.2 ⟨by decide, by decide⟩
  obtain ⟨hg, rfl, -, -, hagain⟩ := heffect g n h
  refine ⟨hlabels, g, h, ?_, hagain⟩
  rw [hg]
  rfl

end Function

end SsaIr
