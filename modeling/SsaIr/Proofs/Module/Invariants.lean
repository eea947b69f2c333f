import SsaIr.Proofs.Instruction.Shape
import SsaIr.Proofs.Module.Composition

/-!
# What holds of every module that was read

Names are identifiers, labels are distinct, instructions have the shapes of their opcodes, and the
local names in their values are told apart by the parameters. Declarations stand in front, and
functions otherwise in the order of their lines in the text.
-/

namespace SsaIr

open Text

/-! ## Functions -/

namespace Function

variable {f : Function} {l : List Char}

/-- What holds of every function that was read. -/
structure Consistent (f : Function) : Prop where
  name : isIdentifier f.name.toList = true
  parameterNames : ∀ name ∈ f.parameterNames, isIdentifier name.toList = true
  parameters_named : f.isDeclaration = false → ∀ p ∈ f.parameters, p.name.isSome = true
  declaration : f.isDeclaration = true → f.blocks = []
  labels : ∀ label ∈ f.labels, isIdentifier label.toList = true
  labels_nodup : f.labels.Nodup
  results : ∀ i ∈ f.instructions, ∀ name ∈ i.result, isIdentifier name.toList = true
  shapes : ∀ i ∈ f.instructions, i.HasShape
  values : ∀ i ∈ f.instructions, ∀ v ∈ i.inputs, v.Scoped f.parameterNames

theorem name_of_parseParameter {required : Bool} {p : Parameter}
    (h : Parameter.parse required l = .ok p) : (∀ name ∈ p.name, isIdentifier name.toList = true) ∧
      (required = true → p.name.isSome = true) := by
  obtain ⟨type, rest, -, hwords, hrequired⟩ := Parameter.parse_eq_ok_iff.1 h
  refine ⟨(Parameter.behindType_of_foldlM hwords (by simp)).2.2, fun hr => ?_⟩
  exact Option.isSome_iff_ne_none.2 fun hnone => hrequired ⟨hr, hnone⟩

/-- The names in a header are identifiers, and a definition names all its parameters. -/
theorem names_of_parseHeader {d : Bool} (h : parseHeader d l = .ok f) :
    isIdentifier f.name.toList = true ∧
      (∀ name ∈ f.parameterNames, isIdentifier name.toList = true) ∧
        (d = false → ∀ p ∈ f.parameters, p.name.isSome = true) := by
  obtain ⟨_, _, _, _, _, _, _, g, mods, -, -, -, hident, -, -, hg, -, rfl⟩ :=
    parseHeader_eq_ok_iff.1 h
  obtain ⟨_, _, ps, -, -, hps, rfl⟩ :=
    (foldlM_addParameter_eq_ok_iff rfl rfl).1 (hg fun reason => .malformedHeader reason)
  have hnames : ∀ p ∈ ps, (∀ name ∈ p.name, isIdentifier name.toList = true) ∧
      ((!d) = true → p.name.isSome = true) :=
    forall_mem_of_forall₂ (hps.imp fun _ _ hp => name_of_parseParameter hp.2)
  rw [foldl_addModifier]
  refine ⟨by rwa [String.toList_ofList], fun name hname => ?_, fun hd p hp => ?_⟩
  · obtain ⟨p, hp, hpname⟩ := List.mem_filterMap.1 hname
    exact (hnames p hp).1 name hpname
  · exact (hnames p hp).2 (by rw [hd]; rfl)

/-- Whatever was read, with its phis eliminated or not, is consistent. -/
theorem Written.consistent (h : f.Written) : f.Consistent := by
  obtain ⟨line, hline⟩ := h.header
  obtain ⟨code, -, hheader⟩ := hline.ofLine
  obtain ⟨hname, hparameters, hnamed⟩ := names_of_parseHeader hheader
  have hread : ∀ i ∈ f.instructions, i.IsRead f.parameterNames ∧
      ∀ name ∈ i.result, isIdentifier name.toList = true := by
    intro i hi
    obtain ⟨b, hb, hi⟩ := List.mem_flatMap.1 hi
    exact ((h.blocks b hb).instructions i hi).isRead
  exact {
    name := hname
    parameterNames := hparameters
    parameters_named := hnamed
    declaration := h.declaration
    labels := List.forall_mem_map.2 fun b hb => (h.blocks b hb).label
    labels_nodup := h.labels
    results := fun i hi => (hread i hi).2
    shapes := fun i hi => (hread i hi).1.shape
    values := fun i hi v hv => ((hread i hi).1.inputs v hv).scoped }

end Function

/-! ## Global variables -/

namespace Global

variable {g : Global} {l : List Char}

/-- What holds of every variable that was read. -/
structure Consistent (g : Global) : Prop where
  name : isIdentifier g.name.toList = true
  initializer : ∀ v ∈ g.initializer, ∀ name type, ¬Value.Occurs (.argument name type) v

theorem consistent_of_parse (h : parse l = .ok g) : g.Consistent := by
  obtain ⟨front, rest, name, parts, g₁, g₂, body, -, hname, -, hg₁, hg₂, hvalue⟩ :=
    parse_eq_ok_iff.1 h
  have hg : g₂.name = name ∧ g₂.initializer = none := by
    rw [(readKeywords_eq_ok hg₂).2.2, (foldlM_addSuffix_eq_ok hg₁).2]
    exact ⟨rfl, rfl⟩
  refine ⟨?_, fun v hv n type hoccurs => ?_⟩
  · rw [eq_of_addValue hvalue]
    exact hg.1 ▸ (sigilName?_eq_some hname).2
  · cases hd : g₂.isDeclaration with
    | true =>
        obtain ⟨-, rfl⟩ := (addValue_declaration_eq_ok_iff hd).1 hvalue
        rw [Option.mem_def, hg.2] at hv
        cases hv
    | false =>
        obtain ⟨v', hparse, rfl⟩ := (addValue_definition_eq_ok_iff hd).1 hvalue
        cases hv
        cases (Value.isRead_of_parseTyped hparse).scoped.argument n type hoccurs

theorem Written.consistent (h : g.Written) : g.Consistent := by
  obtain ⟨line, code, -, -, hparse⟩ := h
  obtain ⟨hname, hinitializer⟩ := consistent_of_parse hparse
  exact ⟨hname, hinitializer⟩

end Global

/-! ## The order of functions -/

namespace Module

variable {m : Module} {f : Function} {file text : String} {ls ls' : List String}

/-- The functions come from parts of the text, one behind the other, each of which is read by itself
as a module with that function alone. Declarations come first, and both they and the definitions are
in the order of these parts. -/
def InSourceOrder (m : Module) (file : String) (ls : List String) : Prop :=
  ∃ (source : List Function) (parts : List (List String)), parts.flatten.Sublist ls ∧
    List.Forall₂ (fun f part => parseLines file part = .ok { functions := [f] }) source parts ∧
      m.functions = source.filter (·.isDeclaration) ++ source.filter (!·.isDeclaration)

theorem addFunction_empty (f : Function) : ({} : Module).addFunction f = { functions := [f] } := by
  unfold addFunction
  split <;> rfl

namespace Reader

variable {r r' : Reader} {l : String}

/-- What a line does behind nothing: it adds no function and opens none, it opens a function or goes
on with it, or it completes one. -/
theorem step_cases {current : Option Function} {l : List Char}
    (h : ({ current } : Reader).step l = .ok r) :
    (r.current = none ∧ r.module.functions = []) ∨
      (∃ f, r = { current := some f }) ∨ ∃ f, r = { module := { functions := [f] } } := by
  cases current with
  | none =>
      cases hline : TopLine.ofLine l with
      | define code comment =>
          simp only [step, hline, addTopLine] at h
          obtain ⟨f, -, rfl⟩ := map_eq_ok_iff.1 h
          exact .inr (.inl ⟨_, rfl⟩)
      | declare code comment =>
          simp only [step, hline, addTopLine] at h
          obtain ⟨f, -, rfl⟩ := map_eq_ok_iff.1 h
          exact .inr (.inr ⟨_, by rw [addFunction_empty]⟩)
      | global code comment =>
          simp only [step, hline, addTopLine] at h
          obtain ⟨g, -, rfl⟩ := map_eq_ok_iff.1 h
          exact .inl ⟨rfl, rfl⟩
      | unknown code =>
          simp only [step, hline, addTopLine] at h
          cases h
      | _ =>
          simp only [step, hline, addTopLine] at h
          cases h
          exact .inl ⟨rfl, rfl⟩
  | some f =>
      rw [step] at h
      dsimp only at h
      split at h
      · cases h
        exact .inr (.inr ⟨f, by rw [addFunction_empty]⟩)
      · obtain ⟨g, -, rfl⟩ := map_eq_ok_iff.1 h
        exact .inr (.inl ⟨g, rfl⟩)

/-- What was read so far: the functions in the order of their parts, and the lines of the function
that is being read. -/
structure Gathered (file : String) (ls : List String) (r : Reader) (source : List Function)
    (parts : List (List String)) (rest : List String) : Prop where
  sublist : (parts.flatten ++ rest).Sublist ls
  functions : List.Forall₂ (fun f part => parseLines file part = .ok { functions := [f] }) source
    parts
  ordered : r.module.Ordered
  declarations : r.module.declarations = source.filter (·.isDeclaration)
  definitions : r.module.definitions = source.filter (!·.isDeclaration)
  reads : Reads {} rest { current := r.current }

theorem Gathered.step {source : List Function} {parts : List (List String)} {rest : List String}
    (h : Gathered file ls r source parts rest) (hstep : r.step l.toList = .ok r') :
    ∃ source parts rest, Gathered file (ls ++ [l]) r' source parts rest := by
  -- By itself the line leads to `r₀`, which stands behind what was read before.
  have heffect := step_eq (l := l.toList) h.ordered r.current
  obtain ⟨r₀, hr₀, rfl⟩ := map_eq_ok_iff.1 (heffect.symm.trans hstep)
  have hmore : (parts.flatten ++ (rest ++ [l])).Sublist (ls ++ [l]) := by
    rw [← List.append_assoc]
    exact h.sublist.append (.refl _)
  have hreads : Reads {} (rest ++ [l]) r₀ := h.reads.append (.singleton hr₀)
  have hordered : (after r.module r₀).module.Ordered := ordered_append _ _
  have hdeclarations : (after r.module r₀).module.declarations =
      source.filter (·.isDeclaration) ++ r₀.module.functions.filter (·.isDeclaration) := by
    rw [after, declarations_append, h.declarations]
    rfl
  have hdefinitions : (after r.module r₀).module.definitions =
      source.filter (!·.isDeclaration) ++ r₀.module.functions.filter (!·.isDeclaration) := by
    rw [after, definitions_append, h.definitions]
    rfl
  rcases step_cases hr₀ with ⟨hcurrent, hfunctions⟩ | ⟨f, rfl⟩ | ⟨f, rfl⟩
  · rw [hfunctions, List.filter_nil, List.append_nil] at hdeclarations hdefinitions
    refine ⟨source, parts, [], ?_, h.functions, hordered, hdeclarations, hdefinitions, ?_⟩
    · rw [List.append_nil]
      exact ((List.sublist_append_left _ _).trans hmore)
    · rw [after, hcurrent]
      exact .nil
  · rw [List.filter_nil, List.append_nil] at hdeclarations hdefinitions
    exact ⟨source, parts, rest ++ [l], hmore, h.functions, hordered, hdeclarations, hdefinitions,
      hreads⟩
  · rw [← List.filter_append] at hdeclarations hdefinitions
    refine ⟨source ++ [f], parts ++ [rest ++ [l]], [], ?_, ?_, hordered, hdeclarations,
      hdefinitions, .nil⟩
    · rw [List.flatten_append, List.flatten_singleton, List.append_nil]
      exact hmore
    · exact List.rel_append h.functions (.cons (parseLines_eq_ok_iff.2 hreads) .nil)

theorem Gathered.of_reads {source : List Function} {parts : List (List String)}
    {rest : List String} (hr : Gathered file ls r source parts rest) (h : Reads r ls' r') :
    ∃ source parts rest, Gathered file (ls ++ ls') r' source parts rest := by
  induction h generalizing ls source parts rest with
  | nil => exact ⟨source, parts, rest, by rwa [List.append_nil]⟩
  | @cons r r' r'' l ls' hstep _ ih =>
      obtain ⟨source', parts', rest', hr'⟩ := hr.step hstep
      rw [List.append_cons]
      exact ih hr'

end Reader

/-- Functions stand in the order of the text, behind each other with declarations in front. -/
theorem inSourceOrder_of_parseLines (h : parseLines file ls = .ok m) : m.InSourceOrder file ls := by
  have hempty : Reader.Gathered file [] {} [] [] [] :=
    ⟨.slnil, .nil, rfl, rfl, rfl, .nil⟩
  obtain ⟨source, parts, rest, hgathered⟩ :=
    hempty.of_reads (Reader.parseLines_eq_ok_iff.1 h)
  refine ⟨source, parts, ?_, hgathered.functions, ?_⟩
  · rw [List.nil_append] at hgathered
    exact (List.sublist_append_left _ _).trans hgathered.sublist
  · rw [← hgathered.declarations, ← hgathered.definitions]
    exact hgathered.ordered

theorem consistent_of_mem (h : parse file text = .ok m) (hf : f ∈ m.functions) : f.Consistent :=
  ((written_of_parse h).functions f hf).consistent

/-- What holds of every module that was read from a text. -/
theorem invariants_of_parse (h : parse file text = .ok m) :
    m.InSourceOrder file ((Text.lines text.toList).map String.ofList) ∧
      (∀ f ∈ m.functions, f.Consistent) ∧ ∀ g ∈ m.globals, g.Consistent := by
  have hwritten := written_of_parse h
  exact ⟨inSourceOrder_of_parseLines h, fun f hf => (hwritten.functions f hf).consistent,
    fun g hg => (hwritten.globals g hg).consistent⟩

/-- A definition with a parameter and a temporary in an operation on constants, and a declaration
behind it. -/
def sumText : String :=
  "define i8 @sum(i8 %n) \x7b\n  ret i8 add (i8 %n, i8 %m)\n\x7d\ndeclare void @stop(i8)\n"

/-- The module that `sumText` is read as. -/
def sum : Module where
  functions :=
    [{ name := "stop", returnType := "void", parameters := [{ type := "i8" }]
       isDeclaration := true },
     { name := "sum", returnType := "i8", parameters := [{ name := some "n", type := "i8" }]
       blocks := [{ label := "0", instructions := [
         { opcode := .ret, type := some "i8"
           operands := [.expr "add" [.argument "n" "i8", .temp "m" "i8"] "i8"] }] }] }]

theorem invariants_of_parse_sum : parse anonymousFile sumText = .ok sum ∧
    sum.InSourceOrder anonymousFile
      ["define i8 @sum(i8 %n) \x7b", "  ret i8 add (i8 %n, i8 %m)", "\x7d",
        "declare void @stop(i8)"] ∧
      (∀ f ∈ sum.functions, f.Consistent) ∧ ∀ g ∈ sum.globals, g.Consistent := by
  have hparse : parse anonymousFile sumText = .ok sum := by decide +kernel
  have hlines : (Text.lines sumText.toList).map String.ofList =
      ["define i8 @sum(i8 %n) \x7b", "  ret i8 add (i8 %n, i8 %m)", "\x7d",
        "declare void @stop(i8)"] := by decide +kernel
  obtain ⟨horder, hfunctions, hglobals⟩ := invariants_of_parse hparse
  rw [hlines] at horder
  exact ⟨hparse, horder, hfunctions, hglobals⟩

end Module

end SsaIr
