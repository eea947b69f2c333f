import SsaIr.Function.PhiElimination
import SsaIr.Proofs.Copies
import SsaIr.Proofs.Flow

/-!
# Phi elimination

Where labels are distinct, eliminating phis puts behind each block the copies for the incoming
pairs with its label, phi after phi. What the copies compute on an edge is then a matter of their
order: they run one after another, while phis read all their operands at once.
-/

namespace SsaIr

/-- The copies that the block with a label gets for a phi. -/
def Instruction.copiesTo (phi : Instruction) (label : String) : List Instruction :=
  match phi.result with
  | none => []
  | some name =>
    (phi.incoming.filter (·.2 = label)).map fun pair => Instruction.copy name phi.type pair.1

theorem pairwise_of_forall_split {α : Type} {R : α → α → Prop} {l : List α}
    (h : ∀ front a mid b back, l = front ++ a :: mid ++ b :: back → R a b) : l.Pairwise R := by
  induction l with
  | nil => exact .nil
  | cons a l ih =>
      rw [List.pairwise_cons]
      constructor
      · intro b hb
        obtain ⟨mid, back, rfl⟩ := List.append_of_mem hb
        exact h [] a mid b back rfl
      · apply ih
        rintro front b mid c back rfl
        exact h (a :: front) b mid c back rfl

namespace Function

/-- The copies that the block with a label gets for all phis. -/
def copiesTo (f : Function) (label : String) : List Instruction :=
  f.phis.flatMap fun pair => pair.2.copiesTo label

variable {f : Function} {b : Block} {phi i : Instruction} {label : String} {p q : Nat}
variable {copies : List (Nat × Instruction)}

theorem mem_phis : (b, phi) ∈ f.phis ↔ b ∈ f.blocks ∧ phi ∈ b.instructions ∧ phi.isPhi = true := by
  simp only [phis, List.mem_flatMap, List.mem_map, List.mem_filter, Prod.mk.injEq]
  constructor
  · rintro ⟨b, hb, phi, hphi, rfl, rfl⟩
    exact ⟨hb, hphi⟩
  · rintro ⟨hb, hphi⟩
    exact ⟨b, hb, phi, hphi, rfl, rfl⟩

theorem mem_reverse_labelTable {entry : String × Nat} :
    entry ∈ f.labelTable.reverse ↔ f.labels[entry.2]? = some entry.1 := by
  rw [List.mem_reverse, labelTable, List.mem_zipIdx_iff_getElem?]

/-- What answers to a label has it. -/
theorem getElem?_of_lastBlockIndex? (h : f.lastBlockIndex? label = some p) :
    f.labels[p]? = some label := by
  obtain ⟨entry, hfind, rfl⟩ := Option.map_eq_some_iff.1 h
  have hlabel : entry.1 = label := by simpa using List.find?_some hfind
  rw [mem_reverse_labelTable.1 (List.mem_of_find?_eq_some hfind), hlabel]

theorem exists_lastBlockIndex?_iff :
    (∃ p, f.lastBlockIndex? label = some p) ↔ label ∈ f.labels := by
  unfold lastBlockIndex?
  rw [← Option.isSome_iff_exists, Option.isSome_map, List.find?_isSome, List.mem_iff_getElem?]
  simp only [mem_reverse_labelTable, decide_eq_true_eq]
  constructor
  · rintro ⟨entry, hentry, rfl⟩
    exact ⟨entry.2, hentry⟩
  · rintro ⟨n, hn⟩
    exact ⟨(label, n), hn, rfl⟩

/-- Where labels are distinct, each belongs to one block. -/
theorem lastBlockIndex?_eq_some_iff (hlabels : f.labels.Nodup) :
    f.lastBlockIndex? label = some p ↔ f.labels[p]? = some label := by
  constructor
  · exact getElem?_of_lastBlockIndex?
  · intro h
    obtain ⟨n, hn⟩ := exists_lastBlockIndex?_iff.2 (List.mem_of_getElem? h)
    have hsame := (getElem?_of_lastBlockIndex? hn).trans h.symm
    have hlt := (List.getElem?_eq_some_iff.1 (getElem?_of_lastBlockIndex? hn)).1
    rw [hn, (List.getElem?_inj hlt hlabels).1 hsame]

/-- A phi with a result is replaced if its labels name blocks, by a copy in each of them. -/
theorem copiesOf_eq_ok_iff : f.copiesOf b phi = .ok copies ↔ ∃ name, phi.result = some name ∧
    List.Forall₂ (fun pair c => f.lastBlockIndex? pair.2 = some c.1 ∧
      c.2 = Instruction.copy name phi.type pair.1) phi.incoming copies := by
  unfold copiesOf
  cases phi.result with
  | none => simp
  | some name =>
      simp only [mapM_eq_ok_iff, Option.some.injEq, exists_eq_left']
      constructor
      · refine fun h => h.imp fun pair c hc => ?_
        cases hindex : f.lastBlockIndex? pair.2 with
        | none =>
            rw [hindex] at hc
            cases hc
        | some index =>
            rw [hindex] at hc
            cases hc
            exact ⟨rfl, rfl⟩
      · refine fun h => h.imp fun pair c hc => ?_
        rw [hc.1, ← hc.2]

/-- The copies for a phi that go to a block are those for the incoming pairs with its label. -/
theorem filter_copiesOf (hlabels : f.labels.Nodup) (hp : f.labels[p]? = some label)
    (h : f.copiesOf b phi = .ok copies) :
    (copies.filter (·.1 = p)).map Prod.snd = phi.copiesTo label := by
  obtain ⟨name, hname, hall⟩ := copiesOf_eq_ok_iff.1 h
  unfold Instruction.copiesTo
  rw [hname]
  clear h
  generalize phi.incoming = incoming at hall ⊢
  induction hall with
  | nil => rfl
  | @cons pair copy incoming copies hcopy _ ih =>
      obtain ⟨index, i⟩ := copy
      obtain ⟨hindex, rfl⟩ := hcopy
      have hiff : index = p ↔ pair.2 = label := by
        have hpair := (lastBlockIndex?_eq_some_iff hlabels).1 hindex
        constructor
        · rintro rfl
          exact Option.some.inj (hpair.symm.trans hp)
        · intro hl
          rw [hl, (lastBlockIndex?_eq_some_iff hlabels).2 hp] at hindex
          exact (Option.some.inj hindex).symm
      by_cases hl : pair.2 = label
      · simpa [List.filter_cons, hl, hiff.2 hl] using ih
      · simpa [List.filter_cons, hl, mt hiff.1 hl] using ih

theorem filter_copies (hlabels : f.labels.Nodup) (hp : f.labels[p]? = some label)
    (h : f.copies = .ok copies) :
    (copies.filter (·.1 = p)).map Prod.snd = f.copiesTo label := by
  obtain ⟨groups, hgroups, rfl⟩ := map_eq_ok_iff.1 h
  unfold copiesTo
  have hall := mapM_eq_ok_iff.1 hgroups
  clear h hgroups
  generalize f.phis = phis at hall ⊢
  induction hall with
  | nil => rfl
  | cons hgroup _ ih =>
      rw [List.flatten_cons, List.filter_append, List.map_append, List.flatMap_cons, ih,
        filter_copiesOf hlabels hp hgroup]

/-- All phis have results, and all their labels are labels of blocks. -/
structure Eliminable (f : Function) : Prop where
  named : ∀ i ∈ f.instructions, i.isPhi = true → i.result.isSome = true
  incoming_exist : ∀ i ∈ f.instructions, i.isPhi = true → ∀ pair ∈ i.incoming, pair.2 ∈ f.labels

theorem Eliminable.exists_copies (h : f.Eliminable) : ∃ copies, f.copies = .ok copies := by
  have hgroups : ∃ groups, f.phis.mapM (fun (b, phi) => f.copiesOf b phi) = .ok groups := by
    apply exists_mapM_eq_ok_iff.2
    rintro ⟨b, phi⟩ hphi
    obtain ⟨hb, hi, hisPhi⟩ := mem_phis.1 hphi
    have hmem := mem_instructions_of_block hb hi
    obtain ⟨name, hname⟩ := Option.isSome_iff_exists.1 (h.named phi hmem hisPhi)
    simp only [copiesOf, hname]
    apply exists_mapM_eq_ok_iff.2
    intro pair hpair
    obtain ⟨index, hindex⟩ :=
      exists_lastBlockIndex?_iff.2 (h.incoming_exist phi hmem hisPhi pair hpair)
    exact ⟨(index, Instruction.copy name phi.type pair.1), by rw [hindex]⟩
  obtain ⟨groups, hgroups⟩ := hgroups
  exact ⟨groups.flatten, map_eq_ok_iff.2 ⟨groups, hgroups, rfl⟩⟩

/-- The block without its phis and with the copies for phis behind everything else. -/
def withoutPhis (f : Function) (b : Block) : Block :=
  { b with instructions := b.instructions.filter (!·.isPhi) ++ f.copiesTo b.label }

/-- What eliminating phis gives where labels are distinct. -/
theorem Eliminable.eliminatePhis_eq (h : f.Eliminable) (hlabels : f.labels.Nodup) :
    f.eliminatePhis = .ok ({ f with blocks := f.blocks.map f.withoutPhis }, f.phis.length) := by
  obtain ⟨copies, hcopies⟩ := h.exists_copies
  rw [eliminatePhis, hcopies]
  change Except.ok (f.replacePhis copies, f.phis.length) = _
  congr 2
  unfold replacePhis
  congr 1
  apply List.ext_getElem?
  intro p
  rw [List.getElem?_map, List.getElem?_map, List.getElem?_zipIdx]
  cases hb : f.blocks[p]? with
  | none => rfl
  | some b =>
      have hp : f.labels[p]? = some b.label := by rw [labels, List.getElem?_map, hb]; rfl
      simp only [Option.map_some, Nat.zero_add, withoutPhis, filter_copies hlabels hp hcopies]

end Function

/-- A phi of the block defines the name, with this operand for the block with the label. -/
def Block.Takes (target : Block) (label : String) (phi : Instruction) (name : String)
    (v : Value) : Prop :=
  phi ∈ target.instructions ∧ phi.isPhi = true ∧ phi.result = some name ∧
    (v, label) ∈ phi.incoming

/-- The copies give every phi of the target block the value that its operand had in front of them,
and leave alone what the terminator of the block reads. -/
def FaithfulOn (copies : List Instruction) (b target : Block) : Prop :=
  ∀ (V : Type) (const : Value → V) (env : String → V),
    (∀ phi name v, target.Takes b.label phi name v →
      runCopies const env copies name = v.eval const env) ∧
    ∀ t, b.terminator? = some t → ∀ x ∈ t.uses, runCopies const env copies x = env x

/-- What a copy for a phi of the target block reads comes through the copies in front of it, and
what the terminator of the block reads comes through all copies. -/
def Undisturbed (copies : List Instruction) (b target : Block) : Prop :=
  (∀ phi name v, target.Takes b.label phi name v →
    ∀ front back, copies = front ++ Instruction.copy name phi.type v :: back →
      ∀ x, v.localName? = some x → origin front x = .inl x) ∧
  ∀ t, b.terminator? = some t → ∀ x ∈ t.uses, origin copies x = .inl x

/-- No copy overwrites what a later copy or the terminator of the block reads, unless with
itself. -/
def InOrder (copies : List Instruction) (b : Block) : Prop :=
  copies.Pairwise (fun c d => ∀ x ∈ c.defines, x ∈ d.uses → x ∈ c.uses) ∧
    ∀ t, b.terminator? = some t → ∀ c ∈ copies, ∀ x ∈ c.defines, x ∈ t.uses → x ∈ c.uses

namespace Instruction

variable {phi c : Instruction} {label name x : String} {v : Value} {type : Option String}

theorem mem_copiesTo_iff : c ∈ phi.copiesTo label ↔
    ∃ name v, phi.result = some name ∧ (v, label) ∈ phi.incoming ∧ c = copy name phi.type v := by
  unfold copiesTo
  cases phi.result with
  | none => simp
  | some name =>
      simp only [List.mem_map, List.mem_filter, decide_eq_true_eq, Prod.exists,
        Option.some.injEq, exists_and_left, exists_eq_left']
      constructor
      · rintro ⟨v, l, ⟨hpair, rfl⟩, rfl⟩
        exact ⟨v, hpair, rfl⟩
      · rintro ⟨v, hpair, rfl⟩
        exact ⟨v, label, ⟨hpair, rfl⟩, rfl⟩

theorem mem_defines_copy : x ∈ (copy name type v).defines ↔ x = name := by
  rw [mem_defines, copy, Option.some.injEq, eq_comm]

theorem mem_uses_copy : x ∈ (copy name type v).uses ↔ v.localName? = some x := by
  simp [mem_uses, copy, inputs]

/-- A phi has as many copies for a label as it lists the label. -/
theorem count_results_copiesTo : ((phi.copiesTo label).filterMap result).count name =
    if phi.result = some name then (phi.incoming.map Prod.snd).count label else 0 := by
  unfold copiesTo
  cases phi.result with
  | none => simp
  | some name' =>
      have hresults : (phi.incoming.filter (·.2 = label)).map (fun _ => name') =
          List.replicate ((phi.incoming.map Prod.snd).count label) name' := by
        rw [List.map_const', List.count_eq_length_filter, List.filter_map, List.length_map]
        rfl
      rw [List.filterMap_map]
      change ((phi.incoming.filter (·.2 = label)).filterMap fun _ => some name').count name = _
      rw [List.filterMap_eq_map', hresults, List.count_replicate]
      simp

end Instruction

namespace Function

variable {f : Function} {b target : Block} {phi c : Instruction} {label name x : String}
variable {p q : Nat} {v : Value} {front back : List Instruction}

theorem mem_copiesTo_iff : c ∈ f.copiesTo label ↔ ∃ target ∈ f.blocks, ∃ phi name v,
    target.Takes label phi name v ∧ c = Instruction.copy name phi.type v := by
  simp only [copiesTo, List.mem_flatMap, Prod.exists, mem_phis, Instruction.mem_copiesTo_iff,
    Block.Takes]
  constructor
  · rintro ⟨target, phi, ⟨ht, hphi, hisPhi⟩, name, v, hname, hpair, rfl⟩
    exact ⟨target, ht, phi, name, v, ⟨hphi, hisPhi, hname, hpair⟩, rfl⟩
  · rintro ⟨target, ht, phi, name, v, ⟨hphi, hisPhi, hname, hpair⟩, rfl⟩
    exact ⟨target, phi, ⟨ht, hphi, hisPhi⟩, name, v, hname, hpair, rfl⟩

theorem incoming_of_mem_copiesTo (h : c ∈ f.copiesTo label) : c.incoming = [] := by
  obtain ⟨target, -, phi, name, v, -, rfl⟩ := mem_copiesTo_iff.1 h
  rfl

theorem map_snd_phis (f : Function) : f.phis.map Prod.snd = f.instructions.filter (·.isPhi) := by
  unfold phis instructions
  induction f.blocks with
  | nil => rfl
  | cons b bs ih =>
      rw [List.flatMap_cons, List.flatMap_cons, List.map_append, List.filter_append, ih,
        List.map_map]
      congr 1
      exact List.map_id _

theorem nodup_results_phis (h : f.definedNames.Nodup) :
    (f.phis.filterMap (·.2.result)).Nodup := by
  have hresults := (List.nodup_append.1 h).2.1
  have hsub : ((f.phis.map Prod.snd).filterMap Instruction.result).Sublist
      (f.instructions.filterMap Instruction.result) := by
    rw [map_snd_phis]
    exact List.filter_sublist.filterMap _
  rw [List.filterMap_map] at hsub
  exact hresults.sublist hsub

/-- Where names are distinct, a phi alone decides how many copies define its result. -/
theorem count_results_flatMap_copiesTo {phis : List (Block × Instruction)} (label : String)
    (hnodup : (phis.filterMap (·.2.result)).Nodup) (hmem : (b, phi) ∈ phis)
    (hname : phi.result = some name) :
    ((phis.flatMap (·.2.copiesTo label)).filterMap Instruction.result).count name =
      (phi.incoming.map Prod.snd).count label := by
  induction phis with
  | nil => simp at hmem
  | cons pair phis ih =>
      rw [List.flatMap_cons, List.filterMap_append, List.count_append,
        Instruction.count_results_copiesTo]
      by_cases hpair : pair.2.result = some name
      · rw [List.filterMap_cons_some (f := fun pair : Block × Instruction => pair.2.result) hpair,
          List.nodup_cons] at hnodup
        have hnot : ∀ other ∈ phis, other.2.result ≠ some name := by
          intro other hother hresult
          exact hnodup.1 (List.mem_filterMap.2 ⟨other, hother, hresult⟩)
        have htail : ((phis.flatMap (·.2.copiesTo label)).filterMap
            Instruction.result).count name = 0 := by
          rw [List.count_eq_zero, List.mem_filterMap]
          rintro ⟨c, hc, hresult⟩
          obtain ⟨other, hother, hc⟩ := List.mem_flatMap.1 hc
          obtain ⟨name', v, hname', -, rfl⟩ := Instruction.mem_copiesTo_iff.1 hc
          cases hresult
          exact hnot other hother hname'
        rcases List.mem_cons.1 hmem with rfl | hmem
        · rw [if_pos hpair, htail, Nat.add_zero]
        · exact absurd hname (hnot (b, phi) hmem)
      · have htail : (b, phi) ∈ phis := by
          rcases List.mem_cons.1 hmem with rfl | hmem
          · exact absurd hname hpair
          · exact hmem
        have hrest : (phis.filterMap (·.2.result)).Nodup :=
          hnodup.sublist ((List.sublist_cons_self pair phis).filterMap _)
        rw [if_neg hpair, Nat.zero_add, ih hrest htail]

/-- Where names are distinct and a phi lists a label once, there is one copy to its result for the
label, and no other copy defines it. -/
theorem exists_split_copiesTo (hnames : f.definedNames.Nodup) (ht : target ∈ f.blocks)
    (h : target.Takes label phi name v) (honce : (phi.incoming.map Prod.snd).count label = 1) :
    (∃ front back, f.copiesTo label = front ++ Instruction.copy name phi.type v :: back) ∧
      ∀ front back, f.copiesTo label = front ++ Instruction.copy name phi.type v :: back →
        ∀ c ∈ front ++ back, name ∉ c.defines := by
  have hcopy := mem_copiesTo_iff.2 ⟨target, ht, phi, name, v, h, rfl⟩
  refine ⟨List.append_of_mem hcopy, ?_⟩
  intro front back hsplit c hc hdefines
  obtain ⟨hphi, hisPhi, hname, -⟩ := h
  have hcount := count_results_flatMap_copiesTo label (nodup_results_phis hnames)
    (mem_phis.2 ⟨ht, hphi, hisPhi⟩) hname
  change ((f.copiesTo label).filterMap Instruction.result).count name = _ at hcount
  have hself : (Instruction.copy name phi.type v).result = some name := rfl
  rw [honce, hsplit, List.filterMap_append, List.filterMap_cons_some hself, List.count_append,
    List.count_cons_self] at hcount
  have hin : name ∈ (front ++ back).filterMap Instruction.result :=
    List.mem_filterMap.2 ⟨c, hc, Instruction.mem_defines.1 hdefines⟩
  rw [List.filterMap_append, ← List.count_pos_iff, List.count_append] at hin
  omega

/-- Phis have results and list each block that control comes from once. -/
structure PhisListPredecessors (f : Function) : Prop where
  named : ∀ i ∈ f.instructions, i.isPhi = true → i.result.isSome = true
  once : ∀ {p q b target ps}, f.blocks[p]? = some b → f.blocks[q]? = some target →
    f.predecessorBlocks q = .ok ps → p ∈ ps → ∀ phi ∈ target.instructions, phi.isPhi = true →
      (phi.incoming.map Prod.snd).count b.label = 1

/-- Phis list no other blocks. -/
def PhisListOnlyPredecessors (f : Function) : Prop :=
  ∀ {q target ps}, f.blocks[q]? = some target → f.predecessorBlocks q = .ok ps →
    ∀ phi ∈ target.instructions, phi.isPhi = true → ∀ pair ∈ phi.incoming,
      ∃ p ∈ ps, f.labels[p]? = some pair.2

section Edges

variable (hwell : f.WellFormed) (hphis : f.PhisListPredecessors)
include hwell hphis

/-- On an edge, the result of a phi holds in the end what its copy gave it. -/
theorem origin_of_takes (hb : f.blocks[p]? = some b) (hq : f.blocks[q]? = some target)
    (hedge : f.Enters p q) (h : target.Takes b.label phi name v) {V : Type} (const : Value → V)
    (env : String → V)
    (hsplit : f.copiesTo b.label = front ++ Instruction.copy name phi.type v :: back) :
    runCopies const env (f.copiesTo b.label) name = v.eval const (runCopies const env front) := by
  obtain ⟨ps, hps⟩ := hwell.exists_predecessorBlocks q
  have honce := hphis.once hb hq hps ((mem_predecessorBlocks_iff hps).2 hedge) phi h.1 h.2.1
  obtain ⟨-, hback⟩ :=
    exists_split_copiesTo hwell.definedNames_nodup (List.mem_of_getElem? hq) h honce
  rw [hsplit]
  apply runCopies_last_copy
  intro c hc
  exact hback front back hsplit c (List.mem_append_right _ hc)

/-- The copies are faithful on an edge exactly if what they read is undisturbed. -/
theorem faithfulOn_iff_undisturbed (hb : f.blocks[p]? = some b) (hq : f.blocks[q]? = some target)
    (hedge : f.Enters p q) :
    FaithfulOn (f.copiesTo b.label) b target ↔ Undisturbed (f.copiesTo b.label) b target := by
  constructor
  · intro h
    constructor
    · intro phi name v htakes front back hsplit
      apply forall_eval_runCopies_eq_iff.1
      intro V const env
      rw [← origin_of_takes hwell hphis hb hq hedge htakes const env hsplit]
      exact (h V const env).1 phi name v htakes
    · intro t hterm x hx
      apply forall_runCopies_eq_iff.1
      intro V const env
      exact (h V const env).2 t hterm x hx
  · rintro ⟨hreads, hterm⟩ V const env
    constructor
    · intro phi name v htakes
      have hcopy := mem_copiesTo_iff.2 ⟨target, List.mem_of_getElem? hq, phi, name, v, htakes, rfl⟩
      obtain ⟨front, back, hsplit⟩ := List.append_of_mem hcopy
      rw [origin_of_takes hwell hphis hb hq hedge htakes const env hsplit]
      exact forall_eval_runCopies_eq_iff.2 (hreads phi name v htakes front back hsplit) V const env
    · intro t ht x hx
      exact forall_runCopies_eq_iff.2 (hterm t ht x hx) V const env

omit hwell hphis in
/-- Copies in order leave undisturbed what is read. -/
theorem undisturbed_of_inOrder (h : InOrder (f.copiesTo b.label) b) :
    Undisturbed (f.copiesTo b.label) b target := by
  obtain ⟨horder, hterm⟩ := h
  constructor
  · intro phi name v htakes front back hsplit x hx
    have hcopies : ∀ c ∈ front, c.incoming = [] := by
      intro c hc
      have hmem : c ∈ f.copiesTo b.label := by
        rw [hsplit]
        exact List.mem_append_left _ hc
      exact incoming_of_mem_copiesTo hmem
    apply origin_eq_of_defines_imp_uses hcopies
    intro c hc hdefines
    rw [hsplit] at horder
    have hpair := (List.pairwise_append.1 horder).2.2 c hc _ List.mem_cons_self
    exact hpair x hdefines (Instruction.mem_uses_copy.2 hx)
  · intro t ht x hx
    apply origin_eq_of_defines_imp_uses fun c hc => incoming_of_mem_copiesTo hc
    intro c hc hdefines
    exact hterm t ht c hc x hdefines hx

omit hphis in
theorem exists_edge_of_mem_copiesTo (honly : f.PhisListOnlyPredecessors)
    (hb : f.blocks[p]? = some b) (hc : c ∈ f.copiesTo b.label) :
    ∃ q target phi name v, f.Enters p q ∧ f.blocks[q]? = some target ∧
      target.Takes b.label phi name v ∧ c = Instruction.copy name phi.type v := by
  obtain ⟨target, ht, phi, name, v, htakes, hcopy⟩ := mem_copiesTo_iff.1 hc
  obtain ⟨q, hq⟩ := List.mem_iff_getElem?.1 ht
  obtain ⟨ps, hps⟩ := hwell.exists_predecessorBlocks q
  obtain ⟨p', hp', hlabel⟩ :=
    honly hq hps phi htakes.1 htakes.2.1 (v, b.label) htakes.2.2.2
  have hp : f.labels[p]? = some b.label := by rw [labels, List.getElem?_map, hb]; rfl
  have heq : p = p' :=
    (List.getElem?_inj (List.getElem?_eq_some_iff.1 hp).1 hwell.labels_nodup).1
      (hp.trans hlabel.symm)
  subst heq
  exact ⟨q, target, phi, name, v, (mem_predecessorBlocks_iff hps).1 hp', hq, htakes, hcopy⟩

/-- A name that comes through copies with its value, one of which defines it, is copied to itself
there. -/
theorem localName?_eq_of_origin_eq (hb : f.blocks[p]? = some b)
    (hq : f.blocks[q]? = some target) (hedge : f.Enters p q)
    (h : Undisturbed (f.copiesTo b.label) b target) (htakes : target.Takes b.label phi name v)
    {front mid back : List Instruction}
    (hsplit : f.copiesTo b.label = front ++ Instruction.copy name phi.type v :: mid ++ back)
    (horigin : origin (front ++ Instruction.copy name phi.type v :: mid) name = .inl name) :
    v.localName? = some name := by
  rw [List.append_assoc, List.cons_append] at hsplit
  obtain ⟨ps, hps⟩ := hwell.exists_predecessorBlocks q
  have honce :=
    hphis.once hb hq hps ((mem_predecessorBlocks_iff hps).2 hedge) phi htakes.1 htakes.2.1
  obtain ⟨-, hother⟩ :=
    exists_split_copiesTo hwell.definedNames_nodup (List.mem_of_getElem? hq) htakes honce
  have hmid : ∀ c ∈ mid, name ∉ c.defines := by
    intro c hc
    apply hother front (mid ++ back) hsplit
    exact List.mem_append_right _ (List.mem_append_left _ hc)
  have hread := forall_eval_runCopies_eq_iff.2 (h.1 phi name v htakes front (mid ++ back) hsplit)
    _ Sum.inr Sum.inl
  have hvalue : v.eval Sum.inr Sum.inl = Sum.inl name := by
    rw [← hread, ← horigin]
    exact (runCopies_last_copy hmid).symm
  unfold Value.eval at hvalue
  cases hname : v.localName? with
  | none =>
      rw [hname] at hvalue
      cases hvalue
  | some y =>
      rw [hname] at hvalue
      cases hvalue
      rfl

/-- Where phis list only predecessors, undisturbed reads on all edges need copies in order. -/
theorem inOrder_of_undisturbed (honly : f.PhisListOnlyPredecessors) (hb : f.blocks[p]? = some b)
    (h : ∀ q target, f.Enters p q → f.blocks[q]? = some target →
      Undisturbed (f.copiesTo b.label) b target) : InOrder (f.copiesTo b.label) b := by
  constructor
  · apply pairwise_of_forall_split
    intro front c mid d back hsplit x hdefines huses
    have hc : c ∈ f.copiesTo b.label := by simp [hsplit]
    have hd : d ∈ f.copiesTo b.label := by simp [hsplit]
    obtain ⟨q, target, phi, name, v, hedge, hq, htakes, rfl⟩ :=
      exists_edge_of_mem_copiesTo hwell honly hb hc
    obtain ⟨q', target', phi', name', w, hedge', hq', htakes', rfl⟩ :=
      exists_edge_of_mem_copiesTo hwell honly hb hd
    rw [Instruction.mem_defines_copy] at hdefines
    rw [Instruction.mem_uses_copy] at huses ⊢
    subst hdefines
    have horigin := (h q' target' hedge' hq').1 phi' name' w htakes' _ back hsplit x huses
    exact localName?_eq_of_origin_eq hwell hphis hb hq hedge (h q target hedge hq) htakes hsplit
      horigin
  · intro t ht c hc x hdefines huses
    obtain ⟨q, target, phi, name, v, hedge, hq, htakes, rfl⟩ :=
      exists_edge_of_mem_copiesTo hwell honly hb hc
    obtain ⟨front, mid, hsplit⟩ := List.append_of_mem hc
    rw [Instruction.mem_defines_copy] at hdefines
    subst hdefines
    rw [Instruction.mem_uses_copy]
    have horigin := (h q target hedge hq).2 t ht x huses
    rw [hsplit] at horigin
    rw [← List.append_nil (front ++ _)] at hsplit
    exact localName?_eq_of_origin_eq hwell hphis hb hq hedge (h q target hedge hq) htakes hsplit
      horigin

end Edges

/-- Eliminating phis from a valid function succeeds, with the copies for phis behind everything
else in each block. On an edge they are faithful exactly if what they read is undisturbed; copies
in order are faithful on all edges, and where phis list only predecessors no others are. -/
theorem eliminatePhis_faithful_iff (hvalid : f.validate = .ok ())
    (hphis : f.PhisListPredecessors) :
    f.eliminatePhis = .ok ({ f with blocks := f.blocks.map f.withoutPhis }, f.phis.length) ∧
      ∀ p b, f.blocks[p]? = some b →
        (∀ q target, f.Enters p q → f.blocks[q]? = some target →
          (FaithfulOn (f.copiesTo b.label) b target ↔
            Undisturbed (f.copiesTo b.label) b target)) ∧
        (InOrder (f.copiesTo b.label) b → ∀ q target, f.Enters p q →
          f.blocks[q]? = some target → FaithfulOn (f.copiesTo b.label) b target) ∧
        (f.PhisListOnlyPredecessors →
          (∀ q target, f.Enters p q → f.blocks[q]? = some target →
            FaithfulOn (f.copiesTo b.label) b target) → InOrder (f.copiesTo b.label) b) := by
  rcases validate_eq_ok_iff.1 hvalid with ⟨-, hempty⟩ | ⟨-, hwell⟩
  · have hno : f.instructions = [] := by rw [instructions, hempty]; rfl
    have helim : f.Eliminable := ⟨by simp [hno], by simp [hno]⟩
    refine ⟨helim.eliminatePhis_eq (by simp [labels, hempty]), fun p b hb => ?_⟩
    rw [hempty] at hb
    cases hb
  · have helim : f.Eliminable := ⟨hphis.named, fun i hi _ => hwell.incoming_exist i hi⟩
    refine ⟨helim.eliminatePhis_eq hwell.labels_nodup, fun p b hb => ?_⟩
    have hiff : ∀ q target, f.Enters p q → f.blocks[q]? = some target →
        (FaithfulOn (f.copiesTo b.label) b target ↔ Undisturbed (f.copiesTo b.label) b target) :=
      fun q target hedge hq => faithfulOn_iff_undisturbed hwell hphis hb hq hedge
    refine ⟨hiff, ?_, ?_⟩
    · intro h q target hedge hq
      exact (hiff q target hedge hq).2 (undisturbed_of_inOrder h)
    · intro honly h
      apply inOrder_of_undisturbed hwell hphis honly hb
      intro q target hedge hq
      exact (hiff q target hedge hq).1 (h q target hedge hq)

/-- `%a`, the last but one number. -/
def fibonacciLast : Instruction where
  result := some "a"
  opcode := .phi
  type := some "i32"
  incoming := [(.int 0 "i32", "entry"), (.temp "b" "i32", "loop")]

/-- `%b`, the last number. -/
def fibonacciNext : Instruction where
  result := some "b"
  opcode := .phi
  type := some "i32"
  incoming := [(.int 1 "i32", "entry"), (.temp "s" "i32", "loop")]

/-- The loop of `fibonacci`. -/
def fibonacciLoop (phis : List Instruction) : Block where
  label := "loop"
  instructions := phis ++
    [{ result := some "s", opcode := .binary .add, type := some "i32"
       operands := [.temp "a" "i32", .temp "b" "i32"] },
     { result := some "c", opcode := .icmp, type := some "i32", predicate := some .slt
       operands := [.temp "s" "i32", .argument "n" "i32"] },
     .condBranch (.temp "c" "i1") "loop" "done"]

/-- The greatest number of the sequence below the argument, with the phis of its loop in the given
order. -/
def fibonacci (phis : List Instruction) : Function where
  name := "fibonacci"
  returnType := "i32"
  parameters := [{ name := some "n", type := "i32" }]
  blocks :=
    [{ label := "entry", instructions := [.branch "loop"] },
     fibonacciLoop phis,
     { label := "done"
       instructions := [{ opcode := .ret, type := some "i32", operands := [.temp "b" "i32"] }] }]

theorem phisListPredecessors_fibonacci {phis : List Instruction}
    (h : phis ∈ [[fibonacciLast, fibonacciNext], [fibonacciNext, fibonacciLast]]) :
    (fibonacci phis).PhisListPredecessors := by
  have hnamed : ∀ i ∈ (fibonacci phis).instructions, i.isPhi = true → i.result.isSome = true := by
    rcases List.mem_pair.1 h with rfl | rfl
    · decide
    · decide
  have honce : ∀ phi ∈ (fibonacciLoop phis).instructions, phi.isPhi = true →
      ∀ label ∈ ["entry", "loop"], (phi.incoming.map Prod.snd).count label = 1 := by
    rcases List.mem_pair.1 h with rfl | rfl
    · decide
    · decide
  refine ⟨hnamed, ?_⟩
  intro p q b target ps hb hq hps hp phi hphi hisPhi
  have hloop : (fibonacci phis).predecessorBlocks 1 = .ok [0, 1] := by
    rcases List.mem_pair.1 h with rfl | rfl
    · rfl
    · rfl
  match q with
  | 0 =>
      cases hq
      cases List.mem_singleton.1 hphi
      cases hisPhi
  | 1 =>
      cases hq
      rw [hloop] at hps
      cases hps
      apply honce phi hphi hisPhi
      rcases List.mem_pair.1 hp with rfl | rfl
      · cases hb
        exact List.mem_cons_self
      · cases hb
        exact List.mem_cons_of_mem _ List.mem_cons_self
  | 2 =>
      cases hq
      cases List.mem_singleton.1 hphi
      cases hisPhi
  | q + 3 => cases hq

/-- With this order of its phis, the last number is copied before the next one overwrites it. -/
def fibonacciInOrder : Function := fibonacci [fibonacciLast, fibonacciNext]

theorem eliminatePhis_faithful_fibonacci : fibonacciInOrder.validate = .ok () ∧
    fibonacciInOrder.PhisListPredecessors ∧
      FaithfulOn (fibonacciInOrder.copiesTo "loop")
        (fibonacciLoop [fibonacciLast, fibonacciNext])
        (fibonacciLoop [fibonacciLast, fibonacciNext]) := by
  have hvalid : fibonacciInOrder.validate = .ok () := rfl
  have hphis : fibonacciInOrder.PhisListPredecessors :=
    phisListPredecessors_fibonacci List.mem_cons_self
  obtain ⟨-, hall⟩ := eliminatePhis_faithful_iff hvalid hphis
  obtain ⟨-, hinOrder, -⟩ := hall 1 _ rfl
  refine ⟨hvalid, hphis, hinOrder ?_ 1 _ ⟨[1, 2], rfl, by decide⟩ rfl⟩
  constructor
  · decide
  · intro t ht
    cases ht
    decide

/-- With this order, the next number has overwritten the last one when that is copied. -/
def fibonacciSwapped : Function := fibonacci [fibonacciNext, fibonacciLast]

theorem not_faithfulOn_fibonacci : fibonacciSwapped.validate = .ok () ∧
    fibonacciSwapped.PhisListPredecessors ∧ fibonacciSwapped.Enters 1 1 ∧
      fibonacciSwapped.eliminatePhis = .ok ({ fibonacciSwapped with
        blocks := fibonacciSwapped.blocks.map fibonacciSwapped.withoutPhis }, 2) ∧
      ¬FaithfulOn (fibonacciSwapped.copiesTo "loop")
        (fibonacciLoop [fibonacciNext, fibonacciLast])
        (fibonacciLoop [fibonacciNext, fibonacciLast]) := by
  have hphis : fibonacciSwapped.PhisListPredecessors :=
    phisListPredecessors_fibonacci (List.mem_cons_of_mem _ List.mem_cons_self)
  refine ⟨rfl, hphis, ⟨[1, 2], rfl, by decide⟩, rfl, ?_⟩
  intro h
  have hlast := (h _ Sum.inr Sum.inl).1 fibonacciLast "a" (.temp "b" "i32")
    ⟨by decide, rfl, rfl, by decide⟩
  exact absurd hlast (by decide)

end Function

end SsaIr
