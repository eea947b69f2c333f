import SsaIr.Proofs.Module.Written

/-!
# Reading one text behind another

What a line says does not depend on the module that was read before it. So each line has an effect
of its own, a module that is put behind the one read so far, and the lines of two complete modules,
one behind the other, are read as both modules put together.
-/

namespace SsaIr

/-- The same failure of reading, so many lines further down. -/
def Error.moveDown (k : Nat) : Error → Error
  | .parse location text cause => .parse { location with line := location.line + k } text cause
  | e => e

/-- Whether the text ends inside a function. -/
def Error.isEndOfInput : Error → Bool
  | .parse _ _ (.unterminatedFunction _) => true
  | _ => false

namespace Module

variable {a b m : Module} {f : Function} {file : String} {ls ls' : List String} {n n' k : Nat}
  {e : Error}

/-- Declarations stand in front of definitions. -/
def Ordered (m : Module) : Prop := m.functions = m.declarations ++ m.definitions

/-- One module behind another: all declarations stand in front, and the later `ModuleID` counts. -/
def append (a b : Module) : Module where
  moduleId := b.moduleId.or a.moduleId
  functions := a.declarations ++ b.declarations ++ a.definitions ++ b.definitions
  globals := a.globals ++ b.globals
  targetInfo := a.targetInfo ++ b.targetInfo
  metadata := a.metadata ++ b.metadata

@[simp] theorem declarations_append (a b : Module) :
    (a.append b).declarations = a.declarations ++ b.declarations := by
  simp [append, declarations, definitions, List.filter_filter]

@[simp] theorem definitions_append (a b : Module) :
    (a.append b).definitions = a.definitions ++ b.definitions := by
  simp [append, declarations, definitions, List.filter_filter]

theorem ordered_append (a b : Module) : (a.append b).Ordered := by
  rw [Ordered, declarations_append, definitions_append, append, List.append_assoc]

theorem append_assoc (a b m : Module) : (a.append b).append m = a.append (b.append m) := by
  rw [append, append.eq_1 a (b.append m), declarations_append, definitions_append,
    declarations_append, definitions_append]
  simp [append, Option.or_assoc]

/-- Behind an ordered module, what has no functions only adds to the other fields. -/
theorem Ordered.append_eq (h : a.Ordered) (hb : b.functions = []) : a.append b =
    { moduleId := b.moduleId.or a.moduleId, functions := a.functions,
      globals := a.globals ++ b.globals, targetInfo := a.targetInfo ++ b.targetInfo,
      metadata := a.metadata ++ b.metadata } := by
  rw [append, h]
  simp [declarations, definitions, hb]

theorem Ordered.append_empty (h : m.Ordered) : m.append {} = m := by
  rw [h.append_eq rfl]
  simp

/-- A function is added to a module as it is added to an empty one behind it. -/
theorem Ordered.addFunction (h : m.Ordered) :
    m.addFunction f = m.append (({} : Module).addFunction f) := by
  rw [addFunction_eq, functions_addFunction h]
  cases hf : f.isDeclaration <;> simp [append, Module.addFunction, declarations, definitions, hf]

namespace Reader

variable {r r' : Reader} {l : List Char}

/-- The state with a module in front of the one read so far. -/
def after (m : Module) (r : Reader) : Reader := { r with module := m.append r.module }

theorem after_append (a b : Module) : after (a.append b) = after a ∘ after b := by
  funext r
  rw [Function.comp_apply, after, after, after, append_assoc]

/-- A line at module level has the same effect behind every module. -/
theorem addTopLine_eq (h : m.Ordered) (t : TopLine) :
    addTopLine m t = (addTopLine {} t).map (after m) := by
  cases t with
  | blank => rw [addTopLine, addTopLine, Except.map, after, h.append_empty]
  | moduleId text => simp [addTopLine, Except.map, after, h.append_eq]
  | targetInfo text => simp [addTopLine, Except.map, after, h.append_eq]
  | metadata text => simp [addTopLine, Except.map, after, h.append_eq]
  | global code comment =>
      rw [addTopLine, addTopLine]
      cases Global.parse code with
      | error e => rfl
      | ok g => simp [Except.map, after, h.append_eq, addGlobal]
  | define code comment =>
      rw [addTopLine, addTopLine]
      cases Function.parseHeader false code with
      | error e => rfl
      | ok f => rw [Except.map, Except.map, Except.map, after, h.append_empty]
  | declare code comment =>
      rw [addTopLine, addTopLine]
      cases Function.parseHeader true code with
      | error e => rfl
      | ok f => rw [Except.map, Except.map, Except.map, after, h.addFunction]
  | unknown code => rfl

/-- Every line has the same effect behind every module. -/
theorem step_eq (h : m.Ordered) (current : Option Function) :
    ({ module := m, current } : Reader).step l =
      (({ current } : Reader).step l).map (after m) := by
  cases current with
  | none => exact addTopLine_eq h _
  | some f =>
      rw [step, step]
      dsimp only
      split
      · rw [Except.map, after, h.addFunction]
      · cases f.addBodyLine (Function.BodyLine.ofLine l) with
        | error e => rfl
        | ok g => simp [Except.map, after, h.append_empty]

theorem step_after (h : r.module.Ordered) : (r.after m).step l = (r.step l).map (after m) := by
  have hr := step_eq (l := l) h r.current
  rw [show r.after m = { module := m.append r.module, current := r.current } from rfl,
    step_eq (ordered_append _ _), hr, after_append]
  cases ({ current := r.current } : Reader).step l <;> rfl

theorem ordered_of_step (h : r.module.Ordered) (hstep : r.step l = .ok r') :
    r'.module.Ordered := by
  have hr := step_eq (l := l) h r.current
  obtain ⟨r₀, -, rfl⟩ := map_eq_ok_iff.1 (hr.symm.trans hstep)
  exact ordered_append _ _

/-- Lines are read behind a module, and further down, as they are read in front. -/
theorem run_after (h : r.module.Ordered) : run file (r.after m) (n + k) ls =
    ((run file r n ls).map fun p => (p.1.after m, p.2 + k)).mapError (Error.moveDown k) := by
  induction ls generalizing r n with
  | nil => rfl
  | cons l ls ih =>
      rw [run, run, step_after h]
      cases hstep : r.step l.toList with
      | error cause => simp [Except.map, Except.mapError, Error.moveDown, Nat.add_right_comm]
      | ok r' =>
          have hrest := ih (n := n + 1) (ordered_of_step h hstep)
          rwa [Nat.add_right_comm] at hrest

theorem run_append : run file r n (ls ++ ls') =
    (run file r n ls).bind fun p => run file p.1 p.2 ls' := by
  induction ls generalizing r n with
  | nil => rfl
  | cons l ls ih =>
      rw [List.cons_append, run, run]
      cases r.step l.toList with
      | error cause => rfl
      | ok r' => exact ih

/-- The first line that cannot be read decides the error. -/
theorem exists_of_run_eq_error (h : run file r n ls = .error e) :
    ∃ front line back cause, ls = front ++ line :: back ∧
      e = .parse ⟨file, n + front.length + 1⟩ (String.ofList (Text.trim line.toList)) cause := by
  induction ls generalizing r n with
  | nil => cases h
  | cons l ls ih =>
      rw [run] at h
      split at h
      · next cause _ =>
          cases h
          exact ⟨[], l, ls, cause, rfl, rfl⟩
      · obtain ⟨front, line, back, cause, rfl, rfl⟩ := ih h
        refine ⟨l :: front, line, back, cause, rfl, ?_⟩
        rw [List.length_cons, Nat.add_assoc n 1, Nat.add_comm 1]

end Reader

/-- What a module is read from leaves declarations in front of definitions. -/
theorem ordered_of_parseLines (h : parseLines file ls = .ok m) : m.Ordered := by
  have hreads := Reader.parseLines_eq_ok_iff.1 h
  have hempty : ({} : Module).Ordered := rfl
  exact hreads.induction (P := fun r => r.module.Ordered) hempty fun _ _ _ _ hstep hr =>
    Reader.ordered_of_step hr hstep

/-- Behind the lines of a complete module, further lines are read as by themselves. -/
theorem parseLines_append_of_ok (h : parseLines file ls = .ok m) : parseLines file (ls ++ ls') =
    ((parseLines file ls').map m.append).mapError (Error.moveDown ls.length) := by
  have hordered := ordered_of_parseLines h
  have hfront : Reader.run file {} 0 ls = .ok (Reader.after m {}, 0 + ls.length) := by
    rw [Reader.run_eq_ok_iff, Reader.after, hordered.append_empty]
    exact ⟨Reader.parseLines_eq_ok_iff.1 h, rfl⟩
  rw [parseLines, parseLines, Reader.run_append, hfront, Except.bind, Reader.run_after (by rfl)]
  cases Reader.run file {} 0 ls' with
  | error e => rfl
  | ok p =>
      obtain ⟨⟨m', current⟩, n⟩ := p
      cases current <;> rfl

/-- A line that cannot be read ends the reading, whatever stands behind it. -/
theorem run_of_parseLines_eq_error (h : parseLines file ls = .error e)
    (he : e.isEndOfInput = false) : Reader.run file {} 0 ls = .error e := by
  unfold parseLines at h
  split at h
  · next hrun =>
      cases h
      exact hrun
  · cases h
  · cases h
    cases he

/-- The lines of two complete modules, one list behind the other, are read as both modules put
together. Where the second list cannot be read, neither can both, for the same reason further down.
And a line of the first list that cannot be read decides the error whatever comes behind it. -/
theorem parseLines_append (file : String) (ls ls' : List String) :
    (∀ a b, parseLines file ls = .ok a → parseLines file ls' = .ok b →
      parseLines file (ls ++ ls') = .ok (a.append b)) ∧
    (∀ a e, parseLines file ls = .ok a → parseLines file ls' = .error e →
      parseLines file (ls ++ ls') = .error (e.moveDown ls.length)) ∧
    (∀ e, parseLines file ls = .error e → e.isEndOfInput = false →
      parseLines file (ls ++ ls') = .error e ∧
        ∃ line, e.line? = some line ∧ 1 ≤ line ∧ line ≤ ls.length) := by
  refine ⟨fun a b ha hb => ?_, fun a e ha he => ?_, fun e he hend => ?_⟩
  · rw [parseLines_append_of_ok ha, hb]
    rfl
  · rw [parseLines_append_of_ok ha, he]
    rfl
  · have hrun := run_of_parseLines_eq_error he hend
    constructor
    · rw [parseLines, Reader.run_append, hrun]
      rfl
    · obtain ⟨front, line, back, cause, rfl, rfl⟩ := Reader.exists_of_run_eq_error hrun
      refine ⟨front.length + 1, by rw [Error.line?, Nat.zero_add], by simp, ?_⟩
      simp

/-- Lines with a declaration behind a definition. -/
def unitLines : List String :=
  ["; ModuleID = 'unit'", "define void @run() \x7b", "  ret void", "\x7d", "declare void @stop()"]

/-- The module of `unitLines`, with the declaration in front. -/
def unit : Module where
  moduleId := some "; ModuleID = 'unit'"
  functions :=
    [{ name := "stop", returnType := "void", isDeclaration := true },
     { name := "run", returnType := "void"
       blocks := [{ label := "0", instructions := [{ opcode := .ret, type := some "void" }] }] }]

/-- Lines with one more declaration. -/
def moreLines : List String := ["target triple = \"none\"", "declare void @start()"]

/-- The module of `moreLines`. -/
def more : Module where
  functions := [{ name := "start", returnType := "void", isDeclaration := true }]
  targetInfo := ["target triple = \"none\""]

theorem parseLines_append_unit :
    parseLines anonymousFile unitLines = .ok unit ∧ parseLines anonymousFile moreLines = .ok more ∧
      parseLines anonymousFile (unitLines ++ moreLines) = .ok (unit.append more) ∧
      (unit.append more).functions.map Function.name = ["stop", "start", "run"] ∧
      (∃ e, e.line? = some 2 ∧ parseLines anonymousFile ["", "hello"] = .error e ∧
        parseLines anonymousFile (unitLines ++ ["", "hello"]) = .error (e.moveDown 5)) ∧
      ∃ e, e.line? = some 2 ∧ parseLines anonymousFile ["", "hello"] = .error e ∧
        parseLines anonymousFile (["", "hello"] ++ unitLines) = .error e := by
  have hunit : parseLines anonymousFile unitLines = .ok unit := by decide +kernel
  have hmore : parseLines anonymousFile moreLines = .ok more := by decide +kernel
  have hbad : parseLines anonymousFile ["", "hello"] =
      .error (.parse ⟨anonymousFile, 2⟩ "hello" (.unexpected "`hello` at module scope")) := by
    decide +kernel
  obtain ⟨hboth, -, -⟩ := parseLines_append anonymousFile unitLines moreLines
  obtain ⟨-, hbehind, -⟩ := parseLines_append anonymousFile unitLines ["", "hello"]
  obtain ⟨-, -, hfront⟩ := parseLines_append anonymousFile ["", "hello"] unitLines
  exact ⟨hunit, hmore, hboth _ _ hunit hmore, by decide +kernel,
    ⟨_, rfl, hbad, hbehind _ _ hunit hbad⟩, ⟨_, rfl, hbad, (hfront _ hbad rfl).1⟩⟩

end Module

end SsaIr
