import Mathlib.Data.List.Nodup
import SsaIr.Builder.Call
import SsaIr.Proofs.Text.Identifier

/-!
# Sessions with a builder

What one call does to a builder is a relation with a case for each kind of call; all calls that
build an instruction share one. The invariants of sessions follow from it: labels stay distinct,
the insertion point stays inside the function, failures leave the function alone, and names of
temporaries do not repeat before the next function is begun.
-/

namespace SsaIr.Builder

/-- The instruction that a call builds if the next fresh name is `name`; none for a call that
builds none. -/
def Call.instruction? (name : String) : Call → Option Instruction
  | .binary op lhs rhs type =>
    some { result := some name, opcode := .binary op, type := some type, operands := [lhs, rhs] }
  | .icmp predicate lhs rhs =>
    some { result := some name, opcode := .icmp, type := some lhs.type, operands := [lhs, rhs],
           predicate := some predicate }
  | .load pointer _ => some { result := some name, opcode := .load, operands := [pointer] }
  | .store value pointer => some { opcode := .store, operands := [value, pointer] }
  | .alloca type => some { result := some name, opcode := .alloca, type := some type }
  | .getElementPtr pointer indices inbounds _ =>
    some { result := some name, opcode := .getElementPtr, operands := pointer :: indices,
           inbounds }
  | .call callee arguments type =>
    some { result := if type = TypeToken.void then none else some name, opcode := .call,
           type := some type, operands := arguments ++ [callee] }
  | .phi type incoming =>
    some { result := some name, opcode := .phi, type := some type, incoming }
  | .copy target value => some (Instruction.copy target none value)
  | .ret none => some { opcode := .ret, type := some TypeToken.void }
  | .ret (some value) => some { opcode := .ret, type := some value.type, operands := [value] }
  | .branch target => some (Instruction.branch target)
  | .condBranch condition whenTrue whenFalse =>
    some (Instruction.condBranch condition whenTrue whenFalse)
  | .compareBranch predicate lhs rhs whenTrue whenFalse =>
    some (Instruction.compareBranch predicate lhs.type lhs rhs whenTrue whenFalse)
  | .newTemp | .newLabel | .createFunction .. | .addParameter .. | .createBlock ..
  | .positionAtEnd .. | .hasTerminator | .finish => none

/-- Whether a call begins a function. -/
def Call.begins : Call → Bool
  | .createFunction .. => true
  | _ => false

/-- Whether a call adds a parameter or a block, or moves the insertion point. -/
def Call.arranges : Call → Bool
  | .addParameter .. | .createBlock .. | .positionAtEnd .. => true
  | _ => false

/-- The name of the temporary that a call hands out with its reply. -/
def Call.temporary? (c : Call) : Except Error Reply → Option String
  | .ok (.name name) => if c = .newTemp then some name else none
  | .ok (.value (.temp name _)) => some name
  | _ => none

/-- The names of the temporaries that calls hand out, in order. -/
def temporaries (b : Builder) (calls : List Call) : List String :=
  (calls.zip (b.runAll calls).2).filterMap fun (c, reply) => c.temporary? reply

/-- The builder after calls of a new one. -/
def after (calls : List Call) : Builder := (({} : Builder).runAll calls).1

/-- What a call does: the builder after it, and its reply. -/
inductive Effect (b : Builder) : Call → Builder → Except Error Reply → Prop where
  /-- The number that a failed call may have taken stays taken. -/
  | failed {c n e} (hn : b.nextTemp ≤ n) : Effect b c { b with nextTemp := n } (.error e)
  | newTemp :
    Effect b .newTemp { b with nextTemp := b.nextTemp + 1 } (.ok (.name (toString b.nextTemp)))
  | newLabel :
    Effect b .newLabel { b with nextLabel := b.nextLabel + 1 }
      (.ok (.name ("bb" ++ toString b.nextLabel)))
  | createFunction {name returnType} :
    Effect b (.createFunction name returnType) (createFunction name returnType)
      (.ok (.created { name, returnType }))
  | addParameter {f name type} (hf : b.function = some f) :
    Effect b (.addParameter name type)
      { b with
        function := some { f with parameters := f.parameters ++ [{ name := some name, type }] } }
      (.ok (.value (.argument name type)))
  | createBlock {f label} (hf : b.function = some f) (hlabel : label ∉ f.labels) :
    Effect b (.createBlock label)
      { b with function := some (f.addBlock { label }), insertionPoint := some f.blocks.length }
      (.ok .done)
  | positionAtEnd {f label index} (hf : b.function = some f)
      (hindex : f.blockIndex? label = some index) :
    Effect b (.positionAtEnd label) { b with insertionPoint := some index } (.ok .done)
  /-- A reply with a temporary names it by the number taken. -/
  | built {c f index i n reply} (hi : c.instruction? (toString b.nextTemp) = some i)
      (hf : b.function = some f) (hpoint : b.insertionPoint = some index)
      (hindex : index < f.blocks.length) (hn : b.nextTemp ≤ n)
      (hreply : ∀ name, c.temporary? (.ok reply) = some name →
        name = toString b.nextTemp ∧ n = b.nextTemp + 1) :
    Effect b c
      { b with
        function := some { f with blocks := f.blocks.modify index (·.add i) }, nextTemp := n }
      (.ok reply)
  | hasTerminator : Effect b .hasTerminator b (.ok (.answer b.hasTerminator))
  | finish :
    Effect b .finish { b with function := none, insertionPoint := none }
      (.ok (.finished b.function))

variable {b b' : Builder} {c : Call} {r : Except Error Reply} {f f' : Function} {i : Instruction}
variable {name type label : String} {make : String → Instruction} {calls : List Call}

/-! ## Calls have these effects -/

theorem current_cases (b : Builder) :
    (∃ e, b.current = .error e) ∨ ∃ f, b.function = some f ∧ b.current = .ok f := by
  cases hf : b.function with
  | none => exact .inl ⟨_, by rw [current, hf]⟩
  | some f => exact .inr ⟨f, rfl, by rw [current, hf]⟩

theorem add_cases (b : Builder) (i : Instruction) :
    (∃ e, b.add i = (b, .error e)) ∨
      ∃ f index, b.function = some f ∧ b.insertionPoint = some index ∧ index < f.blocks.length ∧
        b.add i =
          ({ b with function := some { f with blocks := f.blocks.modify index (·.add i) } },
            .ok ()) := by
  obtain ⟨e, hcurrent⟩ | ⟨f, hf, hcurrent⟩ := b.current_cases
  · exact .inl ⟨e, by rw [add, hcurrent]⟩
  cases hpoint : b.insertionPoint.filter (· < f.blocks.length) with
  | none => exact .inl ⟨_, by rw [add, hcurrent]; dsimp only; rw [hpoint]⟩
  | some index =>
      obtain ⟨hindex, hlt⟩ := Option.filter_eq_some_iff.1 hpoint
      refine .inr ⟨f, index, hf, hindex, of_decide_eq_true hlt, ?_⟩
      rw [add, hcurrent]
      dsimp only
      rw [hpoint]

/-- A call that adds its instruction, with or without taking a number before. -/
theorem add_effect {n : Nat} (hi : c.instruction? (toString b.nextTemp) = some i)
    (hn : b.nextTemp ≤ n) (reply : Reply)
    (hreply : ∀ name, c.temporary? (.ok reply) = some name →
      name = toString b.nextTemp ∧ n = b.nextTemp + 1) :
    Effect b c (({ b with nextTemp := n } : Builder).add i).1
      ((({ b with nextTemp := n } : Builder).add i).2.map fun _ => reply) := by
  obtain ⟨e, hadd⟩ | ⟨f, index, hf, hpoint, hindex, hadd⟩ :=
    add_cases { b with nextTemp := n } i
  · rw [hadd]
    exact .failed hn
  · rw [hadd]
    exact .built hi hf hpoint hindex hn hreply

/-- A call that adds an instruction with a fresh result. -/
theorem addNamed_effect
    (hi : c.instruction? (toString b.nextTemp) = some (make (toString b.nextTemp))) :
    Effect b c (replyValue (b.addNamed type make)).1 (replyValue (b.addNamed type make)).2 := by
  have hreply : (replyValue (b.addNamed type make)).2 =
      (b.newTemp.1.add (make (toString b.nextTemp))).2.map
        fun _ => .value (.temp (toString b.nextTemp) type) := by
    change ((b.newTemp.1.add (make (toString b.nextTemp))).2.map _).map _ = _
    cases (b.newTemp.1.add (make (toString b.nextTemp))).2 <;> rfl
  rw [hreply]
  exact add_effect hi (Nat.le_succ _) _ fun name hname => ⟨(Option.some.inj hname).symm, rfl⟩

/-- A call that adds an instruction without a fresh result. -/
theorem addUnnamed_effect (hi : c.instruction? (toString b.nextTemp) = some i) :
    Effect b c (replyDone (b.add i)).1 (replyDone (b.add i)).2 :=
  add_effect hi (Nat.le_refl _) .done fun name hname => by cases hname

theorem addParameter_effect :
    Effect b (.addParameter name type) (b.run (.addParameter name type)).1
      (b.run (.addParameter name type)).2 := by
  dsimp only [run, replyValue, addParameter]
  obtain ⟨e, hcurrent⟩ | ⟨f, hf, hcurrent⟩ := b.current_cases
  · rw [hcurrent]
    exact .failed (Nat.le_refl _)
  · rw [hcurrent]
    exact .addParameter hf

theorem createBlock_effect :
    Effect b (.createBlock label) (b.run (.createBlock label)).1
      (b.run (.createBlock label)).2 := by
  dsimp only [run, replyDone, createBlock]
  obtain ⟨e, hcurrent⟩ | ⟨f, hf, hcurrent⟩ := b.current_cases
  · rw [hcurrent]
    exact .failed (Nat.le_refl _)
  rw [hcurrent]
  cases hindex : f.blockIndex? label with
  | some index =>
    simp only [hindex, Option.isSome_some, if_true]
    exact .failed (Nat.le_refl _)
  | none =>
    simp only [hindex, Option.isSome_none, Bool.false_eq_true, if_false]
    exact .createBlock hf (Function.blockIndex?_eq_none_iff.1 hindex)

theorem positionAtEnd_effect :
    Effect b (.positionAtEnd label) (b.run (.positionAtEnd label)).1
      (b.run (.positionAtEnd label)).2 := by
  dsimp only [run, replyDone, positionAtEnd]
  obtain ⟨e, hcurrent⟩ | ⟨f, hf, hcurrent⟩ := b.current_cases
  · rw [hcurrent]
    exact .failed (Nat.le_refl _)
  rw [hcurrent]
  cases hindex : f.blockIndex? label with
  | none =>
    rw [Except.bind, Function.resolve, hindex]
    exact .failed (Nat.le_refl _)
  | some index =>
    rw [Except.bind, Function.resolve, hindex]
    exact .positionAtEnd hf hindex

theorem call_effect (callee : Value) (arguments : List Value) :
    Effect b (.call callee arguments type) (b.run (.call callee arguments type)).1
      (b.run (.call callee arguments type)).2 := by
  let i : Instruction := { opcode := .call, type := some type, operands := arguments ++ [callee] }
  dsimp only [run, call]
  by_cases hvoid : type = TypeToken.void
  · rw [if_pos hvoid]
    have hi : (Call.call callee arguments type).instruction? (toString b.nextTemp) = some i := by
      rw [Call.instruction?, if_pos hvoid]
    have hreply : ((b.add i).2.map fun _ => none).map
        (fun value => (Option.map Reply.value value).getD .noValue) =
          (b.add i).2.map fun _ => .noValue := by
      cases (b.add i).2 <;> rfl
    rw [hreply]
    exact add_effect hi (Nat.le_refl _) .noValue fun name hname => by cases hname
  · rw [if_neg hvoid]
    have hi : (Call.call callee arguments type).instruction? (toString b.nextTemp) =
        some { i with result := some (toString b.nextTemp) } := by
      rw [Call.instruction?, if_neg hvoid]
    have hreply : ((b.addNamed type fun name => { i with result := some name }).2.map some).map
        (fun value => (Option.map Reply.value value).getD .noValue) =
          (replyValue (b.addNamed type fun name => { i with result := some name })).2 := by
      rw [replyValue]
      cases (b.addNamed type fun name => { i with result := some name }).2 <;> rfl
    rw [hreply]
    exact addNamed_effect hi

/-- Each call has its effect. -/
theorem run_effect (b : Builder) (c : Call) : Effect b c (b.run c).1 (b.run c).2 := by
  cases c with
  | newTemp => exact .newTemp
  | newLabel => exact .newLabel
  | createFunction name returnType => exact .createFunction
  | addParameter name type => exact addParameter_effect
  | createBlock label => exact createBlock_effect
  | positionAtEnd label => exact positionAtEnd_effect
  | binary op lhs rhs type => exact addNamed_effect rfl
  | icmp predicate lhs rhs => exact addNamed_effect rfl
  | load pointer type => exact addNamed_effect rfl
  | store value pointer => exact addUnnamed_effect rfl
  | alloca type => exact addNamed_effect rfl
  | getElementPtr pointer indices inbounds type => exact addNamed_effect rfl
  | call callee arguments type => exact call_effect callee arguments
  | phi type incoming => exact addNamed_effect rfl
  | copy target value => exact addUnnamed_effect rfl
  | ret value => cases value <;> exact addUnnamed_effect rfl
  | branch target => exact addUnnamed_effect rfl
  | condBranch condition whenTrue whenFalse => exact addUnnamed_effect rfl
  | compareBranch predicate lhs rhs whenTrue whenFalse => exact addUnnamed_effect rfl
  | hasTerminator => exact .hasTerminator
  | finish => exact .finish

/-! ## What follows from the effect of one call -/

/-- Labels are distinct, and the insertion point is the index of a block of the function. -/
structure WellFormed (b : Builder) : Prop where
  labels_nodup : ∀ f, b.function = some f → f.labels.Nodup
  insertionPoint_lt : ∀ index, b.insertionPoint = some index →
    ∃ f, b.function = some f ∧ index < f.blocks.length

theorem labels_modify_add (f : Function) (index : Nat) (i : Instruction) :
    ({ f with blocks := f.blocks.modify index (·.add i) } : Function).labels = f.labels := by
  apply List.ext_getElem?
  intro k
  simp only [Function.labels, List.getElem?_map, List.getElem?_modify]
  by_cases hk : index = k
  · simp only [if_pos hk, Option.map_eq_map, Option.map_map]
    rfl
  · simp only [if_neg hk, id_map']

/-- A block is as before, or has one more instruction. -/
theorem mem_modify_add {bs : List Block} {block : Block} {index : Nat}
    (h : block ∈ bs.modify index (·.add i)) : block ∈ bs ∨ ∃ b ∈ bs, block = b.add i := by
  obtain ⟨k, hk⟩ := List.mem_iff_getElem?.1 h
  rw [List.getElem?_modify] at hk
  obtain ⟨b, hb, rfl⟩ := Option.map_eq_some_iff.1 hk
  split
  · exact .inr ⟨b, List.mem_of_getElem? hb, rfl⟩
  · exact .inl (List.mem_of_getElem? hb)

theorem Effect.wellFormed (h : Effect b c b' r) (hb : b.WellFormed) : b'.WellFormed := by
  obtain ⟨hlabels, hpoints⟩ := hb
  cases h with
  | failed hn => exact ⟨hlabels, hpoints⟩
  | newTemp => exact ⟨hlabels, hpoints⟩
  | newLabel => exact ⟨hlabels, hpoints⟩
  | createFunction =>
    constructor
    · rintro f ⟨rfl⟩
      exact List.nodup_nil
    · rintro index ⟨⟩
  | addParameter hf =>
    constructor
    · rintro f' ⟨rfl⟩
      exact (hlabels _ hf :)
    · intro index hindex
      obtain ⟨f', hf', hlt⟩ := hpoints index hindex
      cases hf.symm.trans hf'
      exact ⟨_, rfl, hlt⟩
  | createBlock hf hlabel =>
    constructor
    · rintro f' ⟨rfl⟩
      rw [Function.labels_addBlock]
      exact List.concat_eq_append ▸ (hlabels _ hf).concat hlabel
    · rintro index ⟨rfl⟩
      exact ⟨_, rfl, by simp [Function.addBlock]⟩
  | positionAtEnd hf hindex =>
    refine ⟨hlabels, ?_⟩
    rintro index ⟨rfl⟩
    exact ⟨_, hf, (List.findIdx?_eq_some_iff_getElem.1 hindex).1⟩
  | built hi hf hpoint hindex hn hreply =>
    constructor
    · rintro f' ⟨rfl⟩
      rw [labels_modify_add]
      exact hlabels _ hf
    · intro index' hindex'
      cases hpoint.symm.trans hindex'
      exact ⟨_, rfl, by simpa using hindex⟩
  | hasTerminator => exact ⟨hlabels, hpoints⟩
  | finish =>
    constructor
    · rintro f ⟨⟩
    · rintro index ⟨⟩

/-- A failed call leaves all but the number of the next temporary as it was. -/
theorem Effect.eq_of_error (h : Effect b c b' (.error e)) :
    b' = { b with nextTemp := b'.nextTemp } ∧ b.nextTemp ≤ b'.nextTemp := by
  cases h with
  | failed hn => exact ⟨rfl, hn⟩

/-- A call that builds an instruction and does not fail puts it behind the others of the block at
the insertion point. The other blocks stay as they are, and so does all else. -/
theorem Effect.exists_appended (h : Effect b c b' (.ok reply))
    (hi : c.instruction? (toString b.nextTemp) = some i) :
    ∃ f index block blocks, b.function = some f ∧ b.insertionPoint = some index ∧
      f.blocks[index]? = some block ∧ b'.function = some { f with blocks } ∧
      blocks[index]? = some { block with instructions := block.instructions ++ [i] } ∧
      (∀ k, k ≠ index → blocks[k]? = f.blocks[k]?) ∧ b'.insertionPoint = some index := by
  cases h with
  | @built _ f index _ _ _ hi' hf hpoint hindex =>
    cases hi.symm.trans hi'
    have hblock := List.getElem?_eq_getElem hindex
    refine ⟨f, index, _, _, hf, hpoint, hblock, rfl, ?_, fun k hk => ?_, hpoint⟩
    · rw [List.getElem?_modify_eq, hblock]
      rfl
    · exact List.getElem?_modify_ne _ _ hk.symm
  | _ => cases hi

theorem instruction?_addBlock_empty (f : Function) (label : String) (p : Position) :
    (f.addBlock { label }).instruction? p = f.instruction? p := by
  rw [Function.instruction?, Function.instruction?, Function.addBlock]
  obtain hp | hp := Nat.lt_or_ge p.block f.blocks.length
  · rw [List.getElem?_append_left hp]
  · rw [List.getElem?_append_right hp, List.getElem?_eq_none hp, List.getElem?_singleton]
    split <;> rfl

theorem Call.instruction?_of_arranges (hc : c.arranges = true) : c.instruction? name = none := by
  cases c <;> first | rfl | cases hc

/-- A call that adds a parameter or a block, or moves the insertion point, changes no
instruction. -/
theorem Effect.instruction?_of_arranges (h : Effect b c b' r) (hc : c.arranges = true)
    (hf : b.function = some f) :
    ∃ f', b'.function = some f' ∧ ∀ p, f'.instruction? p = f.instruction? p := by
  cases h with
  | failed hn => exact ⟨f, hf, fun p => rfl⟩
  | addParameter hf' =>
    cases hf.symm.trans hf'
    exact ⟨_, rfl, fun p => rfl⟩
  | createBlock hf' hlabel =>
    cases hf.symm.trans hf'
    exact ⟨_, rfl, instruction?_addBlock_empty f _⟩
  | positionAtEnd hf' hindex => exact ⟨f, hf, fun p => rfl⟩
  | built hi => cases (Call.instruction?_of_arranges hc).symm.trans hi
  | _ => cases hc

theorem Effect.temporary? (h : Effect b c b' r) (hname : c.temporary? r = some name) :
    name = toString b.nextTemp ∧ b'.nextTemp = b.nextTemp + 1 := by
  cases h with
  | newTemp => exact ⟨(Option.some.inj hname).symm, rfl⟩
  | built hi hf hpoint hindex hn hreply => exact hreply name hname
  | _ => cases hname

theorem Effect.nextTemp_le (h : Effect b c b' r) (hc : c.begins = false) :
    b.nextTemp ≤ b'.nextTemp := by
  cases h with
  | failed hn => exact hn
  | newTemp => exact Nat.le_succ _
  | createFunction => cases hc
  | built hi hf hpoint hindex hn hreply => exact hn
  | _ => exact Nat.le_refl _

/-! ## What follows for sessions -/

theorem runAll_cons (b : Builder) (c : Call) (cs : List Call) :
    b.runAll (c :: cs) =
      (((b.run c).1.runAll cs).1, (b.run c).2 :: ((b.run c).1.runAll cs).2) := rfl

theorem WellFormed.runAll (hb : b.WellFormed) (calls : List Call) :
    (b.runAll calls).1.WellFormed := by
  induction calls generalizing b with
  | nil => exact hb
  | cons c calls ih => exact ih ((b.run_effect c).wellFormed hb)

theorem wellFormed_after (calls : List Call) : (after calls).WellFormed :=
  WellFormed.runAll ⟨by rintro f ⟨⟩, by rintro index ⟨⟩⟩ calls

theorem temporaries_cons (b : Builder) (c : Call) (cs : List Call) :
    b.temporaries (c :: cs) =
      (c.temporary? (b.run c).2).toList ++ (b.run c).1.temporaries cs := by
  rw [temporaries, runAll_cons, List.zip_cons_cons, List.filterMap_cons]
  dsimp only
  cases c.temporary? (b.run c).2 <;> rfl

theorem toString_injective {m n : Nat} (h : toString m = toString n) : m = n := by
  apply Option.some.inj
  rw [← Text.nat?_toString, h, Text.nat?_toString]

/-- As long as no function is begun, temporaries have the numbers from the next one on. -/
theorem exists_of_mem_temporaries (hcalls : ∀ c ∈ calls, c.begins = false)
    (hname : name ∈ b.temporaries calls) : ∃ n, b.nextTemp ≤ n ∧ name = toString n := by
  induction calls generalizing b with
  | nil => cases hname
  | cons c calls ih =>
    rw [temporaries_cons, List.mem_append, Option.mem_toList] at hname
    obtain hname | hname := hname
    · exact ⟨b.nextTemp, Nat.le_refl _, ((b.run_effect c).temporary? hname).1⟩
    · obtain ⟨n, hn, hname⟩ := ih (fun c hc => hcalls c (List.mem_cons_of_mem _ hc)) hname
      exact ⟨n, Nat.le_trans ((b.run_effect c).nextTemp_le (hcalls c List.mem_cons_self)) hn, hname⟩

theorem nodup_temporaries (b : Builder) (hcalls : ∀ c ∈ calls, c.begins = false) :
    (b.temporaries calls).Nodup := by
  induction calls generalizing b with
  | nil => exact List.nodup_nil
  | cons c calls ih =>
    have htail := fun c hc => hcalls c (List.mem_cons_of_mem _ hc)
    rw [temporaries_cons]
    cases hfirst : c.temporary? (b.run c).2 with
    | none => exact ih _ htail
    | some first =>
      refine List.nodup_cons.2 ⟨fun hmem => ?_, ih _ htail⟩
      obtain ⟨hname, hnext⟩ := (b.run_effect c).temporary? hfirst
      obtain ⟨n, hn, hname'⟩ := exists_of_mem_temporaries htail hmem
      have hnumber := toString_injective (hname.symm.trans hname')
      omega

/-- The second temporary is the one of a call that fails for want of a block. -/
example : temporaries {} [.createFunction "f" "i8", .newTemp, .alloca "i8", .createBlock "entry",
    .alloca "i8"] = ["0", "2"] := by decide

/-- After any calls, a builder is well-formed; a next call that fails changes at most the number
of the next temporary, one that builds an instruction puts it behind the others of the block at the
insertion point and changes no other block and nothing else, and one that adds a parameter or a
block, or moves the insertion point, changes no instruction; and temporaries handed out from there
on, while no function is begun, have distinct names. -/
theorem session_invariants (calls : List Call) :
    (after calls).WellFormed ∧
      (∀ c e, ((after calls).run c).2 = .error e →
        ((after calls).run c).1 =
            { after calls with nextTemp := ((after calls).run c).1.nextTemp } ∧
          (after calls).nextTemp ≤ ((after calls).run c).1.nextTemp) ∧
      (∀ c i reply, c.instruction? (toString (after calls).nextTemp) = some i →
        ((after calls).run c).2 = .ok reply →
        ∃ f index block blocks, (after calls).function = some f ∧
          (after calls).insertionPoint = some index ∧ f.blocks[index]? = some block ∧
          ((after calls).run c).1.function = some { f with blocks } ∧
          blocks[index]? = some { block with instructions := block.instructions ++ [i] } ∧
          (∀ k, k ≠ index → blocks[k]? = f.blocks[k]?) ∧
          ((after calls).run c).1.insertionPoint = some index) ∧
      (∀ c f, c.arranges = true → (after calls).function = some f →
        ∃ f', ((after calls).run c).1.function = some f' ∧
          ∀ p, f'.instruction? p = f.instruction? p) ∧
      ∀ more : List Call, (∀ c ∈ more, c.begins = false) →
        ((after calls).temporaries more).Nodup := by
  refine ⟨wellFormed_after calls, fun c e herror => ?_, fun c i reply hi hreply => ?_,
    fun c f hc hf => ?_, fun more hmore => nodup_temporaries _ hmore⟩
  · have heffect := (after calls).run_effect c
    rw [herror] at heffect
    exact heffect.eq_of_error
  · have heffect := (after calls).run_effect c
    rw [hreply] at heffect
    exact heffect.exists_appended hi
  · exact ((after calls).run_effect c).instruction?_of_arranges hc hf

/-- The number that is taken before there is a block stays taken. -/
def allocaCalls : List Call :=
  [.createFunction "f" "i8", .alloca "i8", .createBlock "entry", .alloca "i8"]

theorem session_invariants_allocaCalls :
    (∃ blocks, ((after allocaCalls).run (.ret none)).1.function =
        some { name := "f", returnType := "i8", blocks } ∧
      blocks[0]? = some
        { label := "entry"
          instructions :=
            [{ result := some "1", opcode := .alloca, type := some "i8" },
             { opcode := .ret, type := some "void" }] }) ∧
      ((after allocaCalls).run (.createBlock "entry")).1.function = (after allocaCalls).function ∧
        ((after allocaCalls).temporaries [.newTemp, .alloca "i8"]).Nodup := by
  obtain ⟨-, hfailed, hbuilt, -, hnames⟩ := session_invariants allocaCalls
  refine ⟨?_, ?_, hnames _ (by decide)⟩
  · obtain ⟨f, index, block, blocks, hf, hpoint, hblock, hdone, happended, -, -⟩ :=
      hbuilt (.ret none) _ .done rfl rfl
    cases hf
    cases hpoint
    cases hblock
    exact ⟨blocks, hdone, happended⟩
  · exact congrArg function (hfailed (.createBlock "entry") _ rfl).1

end SsaIr.Builder
