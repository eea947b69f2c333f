import SsaIr.Proofs.Module.Written

/-!
# Modules are read back

The groups of lines that a module is written as are read one after the other, and each adds what
it was written for. Reading the text of a regular module that was read, with its phis eliminated
or not, gives that module.
-/

namespace SsaIr

open Text
open SsaIr.Module (TopLine)
open SsaIr.Module.Reader (Rereads)

variable {f : Function} {g : Global} {m : Module} {line : List Char} {style : LabelStyle}

/-! ## Headers -/

namespace Function

/-- The line of a header: with a brace at its end if a body follows, and the comment. -/
def headerLine (f : Function) : List Char :=
  (if f.isDeclaration then "declare ".toList else "define ".toList) ++ f.headerText ++
    (f.comment.map String.toList).getD []

theorem toList_declarationLine (h : f.isDeclaration = true) :
    f.declarationLine.toList = f.headerLine := by
  have hheader := toList_header f
  rw [declarationLine, headerLine, String.toList_append, toList_getD_comment, ← hheader, h,
    if_pos rfl, List.append_nil]

theorem toList_definitionLine (h : f.isDeclaration = false) :
    (f.header ++ " \x7b" ++ f.comment.getD "").toList = f.headerLine := by
  have hheader := toList_header f
  rw [headerLine, String.toList_append, String.toList_append, toList_getD_comment, ← hheader, h,
    if_neg Bool.false_ne_true]
  rfl

/-- A header is read again from the line it is written on. -/
theorem FromHeader.reread (h : f.FromHeader line) (hregular : f.isRegular = true) :
    IsLine f.headerLine ∧
      TopLine.ofLine f.headerLine = (if f.isDeclaration then .declare f.headerText f.comment
        else .define f.headerText f.comment) ∧
      parseHeader f.isDeclaration f.headerText = .ok { f with blocks := [], comment := none } := by
  obtain ⟨hline, text, htop, hparse⟩ := h
  simp only [isRegular, Bool.and_eq_true, Bool.or_eq_true, Bool.not_eq_true'] at hregular
  obtain ⟨⟨hcomment, hbrace⟩, -⟩ := hregular
  obtain ⟨hsolid, hkeeps, hagain⟩ := header_reread hparse
  have hwritable : Writable ((if f.isDeclaration then "declare ".toList else "define ".toList) ++
      f.headerText) (f.comment.map String.toList) := by
    obtain ⟨hcode, hcomment'⟩ : trim (splitComment line).1 =
        (if f.isDeclaration then "declare ".toList else "define ".toList) ++ text ∧
          f.comment = (splitComment line).2.map String.ofList := by
      cases hd : f.isDeclaration with
      | true =>
          rw [hd] at htop
          exact TopLine.describes_of_ofLine htop
      | false =>
          rw [hd] at htop
          exact TopLine.describes_of_ofLine htop
    refine writable_of_line hcomment' hcomment hline (.append ?_ hsolid.last) ?_
    · split <;> rfl
    · rw [hcode]
      exact (Keeps.refl _).append hkeeps
  rw [headerLine]
  refine ⟨hwritable.isLine_at_start, ?_, hagain fun hd => hbrace.resolve_left (by simp [hd])⟩
  cases hd : f.isDeclaration with
  | true =>
      rw [hd] at hwritable
      exact TopLine.ofLine_declare hwritable
  | false =>
      rw [hd] at hwritable
      exact TopLine.ofLine_define hwritable

end Function

/-- A variable is read again from the line it is written on. -/
theorem Global.Written.reread (h : g.Written) (hregular : g.isRegular = true) :
    IsLine (g.text ++ g.comment.getD "").toList ∧
      TopLine.ofLine (g.text ++ g.comment.getD "").toList = .global g.text.toList g.comment ∧
      Global.parse g.text.toList = .ok { g with comment := none } := by
  obtain ⟨line, code, hline, htop, hparse⟩ := h
  obtain ⟨rfl, hcomment⟩ := TopLine.describes_of_ofLine htop
  have htext : ({ g with comment := none } : Global).text = g.text := rfl
  obtain ⟨hsolid, hkeeps, hagain⟩ := Global.parse_reread hparse
    (Global.hasRegularInitializer_of_isRegular hregular : g.HasRegularInitializer)
  rw [htext] at hsolid hkeeps hagain
  rw [Global.isRegular, Bool.and_eq_true] at hregular
  have hwritable : Writable g.text.toList (g.comment.map String.toList) :=
    writable_of_line hcomment hregular.1 hline hsolid hkeeps
  rw [String.toList_append, toList_getD_comment]
  refine ⟨hwritable.isLine_at_start, TopLine.ofLine_global hwritable ?_, hagain⟩
  rw [Global.toList_text]
  rfl

namespace Module

/-! ## Groups of lines -/

theorem rereads_withGap {m' : Module} {ls : List String}
    (h : Rereads { module := m } ls { module := m' }) :
    Rereads { module := m } (withGap ls) { module := m' } := by
  rw [withGap]
  split
  · next hempty => rwa [List.isEmpty_iff.1 hempty] at h
  · exact h.append (.blank rfl)

theorem rereads_afterGap {m' : Module} {ls : List String}
    (h : Rereads { module := m } ls { module := m' }) :
    Rereads { module := m } (afterGap ls) { module := m' } := by
  rw [afterGap]
  split
  · next hempty => rwa [List.isEmpty_iff.1 hempty] at h
  · exact (Rereads.blank rfl).append h

/-- A line at module level adds what it says. -/
theorem rereads_topLine {r : Reader} {l : String} {top : TopLine} (hl : IsLine l.toList)
    (htop : TopLine.ofLine l.toList = top) (hadd : Reader.addTopLine m top = .ok r) :
    Rereads { module := m } [l] r := by
  refine .singleton hl ?_
  rw [← hadd, ← htop]
  rfl

theorem rereads_moduleId (h : m.Written) {m₀ : Module} (hnone : m₀.moduleId = none) :
    Rereads { module := m₀ } m.moduleId.toList { module := { m₀ with moduleId := m.moduleId } } := by
  cases hid : m.moduleId with
  | none =>
      have hsame : ({ m₀ with moduleId := none } : Module) = m₀ := by rw [← hnone]
      rw [hsame]
      exact .nil
  | some t =>
      obtain ⟨line, hline, htop⟩ := h.moduleId t hid
      obtain ⟨hsubset, hsolid, hagain⟩ := TopLine.ofLine_moduleId htop
      refine rereads_topLine (hsolid.isLine fun hmem => hline (hsubset hmem)) hagain ?_
      rw [Reader.addTopLine, String.ofList_toList]

/-- Lines that are kept can stand in a text. -/
theorem isLine_of_eq_trim {text : List Char} (htext : text = trim line) (hline : '\n' ∉ line) :
    IsLine text := by
  have hnewline : '\n' ∉ text := fun hmem => hline (trim_subset line (htext ▸ hmem))
  rcases trim_eq_nil_or_solid line with hnil | hsolid
  · rw [htext, hnil]
    exact ⟨List.not_mem_nil, by simp⟩
  · exact Solid.isLine (htext ▸ hsolid) hnewline

theorem rereads_targetInfo (h : m.Written) {m₀ : Module} (hnil : m₀.targetInfo = []) :
    Rereads { module := m₀ } m.targetInfo { module := { m₀ with targetInfo := m.targetInfo } } := by
  have hlines := Rereads.map (fun ts => { module := { m₀ with targetInfo := ts } }) id
    fun front t back (hts : m.targetInfo = front ++ t :: back) => ?_
  · rw [List.map_id, ← hnil] at hlines
    exact hlines
  · obtain ⟨line, hline, htop⟩ := h.targetInfo t (by rw [hts]; simp)
    obtain ⟨htext, hagain⟩ := TopLine.ofLine_targetInfo htop
    refine rereads_topLine (isLine_of_eq_trim htext hline) hagain ?_
    rw [Reader.addTopLine, String.ofList_toList]

theorem rereads_metadata (h : m.Written) {m₀ : Module} (hnil : m₀.metadata = []) :
    Rereads { module := m₀ } m.metadata { module := { m₀ with metadata := m.metadata } } := by
  have hlines := Rereads.map (fun ts => { module := { m₀ with metadata := ts } }) id
    fun front t back (hts : m.metadata = front ++ t :: back) => ?_
  · rw [List.map_id, ← hnil] at hlines
    exact hlines
  · obtain ⟨line, hline, htop⟩ := h.metadata t (by rw [hts]; simp)
    obtain ⟨htext, hagain⟩ := TopLine.ofLine_metadata htop
    refine rereads_topLine (isLine_of_eq_trim htext hline) hagain ?_
    rw [Reader.addTopLine, String.ofList_toList]

theorem rereads_globals (h : m.Written) (hregular : m.globals.all Global.isRegular = true)
    {m₀ : Module} (hnil : m₀.globals = []) :
    Rereads { module := m₀ } (m.globals.map fun g => g.text ++ g.comment.getD "")
      { module := { m₀ with globals := m.globals } } := by
  have hlines := Rereads.map (fun gs => { module := { m₀ with globals := gs } })
    (fun g => g.text ++ g.comment.getD "")
    fun front g back (hgs : m.globals = front ++ g :: back) => ?_
  · rw [← hnil] at hlines
    exact hlines
  · have hmem : g ∈ m.globals := by
      rw [hgs]
      simp
    obtain ⟨hline, htop, hparse⟩ := (h.globals g hmem).reread (List.all_eq_true.1 hregular g hmem)
    refine rereads_topLine hline htop ?_
    rw [Reader.addTopLine, hparse]
    rfl

/-- A declaration is added behind other declarations. -/
theorem addFunction_declaration {f : Function} (hf : f.isDeclaration = true)
    (hm : ∀ g ∈ m.functions, g.isDeclaration = true) :
    m.addFunction f = { m with functions := m.functions ++ [f] } := by
  have hdeclarations : m.declarations = m.functions := List.filter_eq_self.2 hm
  have hdefinitions : m.definitions = [] :=
    List.filter_eq_nil_iff.2 fun g hg => by simp [hm g hg]
  have hfunctions := functions_addFunction (f := f) (m := m)
    (by rw [hdeclarations, hdefinitions, List.append_nil])
  rw [if_pos hf, hdeclarations, hdefinitions] at hfunctions
  rw [addFunction_eq, hfunctions]

theorem rereads_declarations (h : m.Written) (hregular : m.functions.all Function.isRegular = true)
    {m₀ : Module} (hnil : m₀.functions = []) :
    Rereads { module := m₀ } (m.declarations.map Function.declarationLine)
      { module := { m₀ with functions := m.declarations } } := by
  have hlines := Rereads.map (fun fs => { module := { m₀ with functions := fs } })
    Function.declarationLine
    fun front f back (hfs : m.declarations = front ++ f :: back) => ?_
  · rw [← hnil] at hlines
    exact hlines
  · have hall : ∀ g ∈ front ++ f :: back, g ∈ m.functions ∧ g.isDeclaration = true := by
      rw [← hfs]
      exact fun g hg => List.mem_filter.1 hg
    obtain ⟨hmem, hf⟩ := hall f (by simp)
    have hwritten := h.functions f hmem
    obtain ⟨line, hheader⟩ := hwritten.header
    obtain ⟨hline, htop, hparse⟩ := hheader.reread (List.all_eq_true.1 hregular f hmem)
    rw [← Function.toList_declarationLine hf] at hline htop
    rw [hf, if_pos rfl] at htop
    refine rereads_topLine hline htop ?_
    have hparse' := (congrArg (Function.parseHeader · f.headerText) hf).symm.trans hparse
    have hsame : ({ f with blocks := [] } : Function) = f := by rw [← hwritten.declaration hf]
    have hadd : ({ m₀ with functions := front } : Module).addFunction f =
        { m₀ with functions := front ++ [f] } :=
      addFunction_declaration hf fun g hg => (hall g (List.mem_append_left _ hg)).2
    rw [Reader.addTopLine, hparse', ← hadd]
    exact congrArg (fun g => (.ok ⟨addFunction _ g, none⟩ : Except ParseError Reader)) hsame

/-- A definition is read again behind other functions. -/
theorem rereads_definition (style : LabelStyle) {f : Function} (hf : f.Written)
    (hregular : f.isRegular = true) (hdefinition : f.isDeclaration = false) :
    Rereads { module := m } (f.definitionLines style) { module := m.addFunction f } := by
  obtain ⟨line, hheader⟩ := hf.header
  obtain ⟨hline, htop, hparse⟩ := hheader.reread hregular
  rw [← Function.toList_definitionLine hdefinition] at hline htop
  rw [hdefinition, if_neg Bool.false_ne_true] at htop
  have hparse' := (congrArg (Function.parseHeader · f.headerText) hdefinition).symm.trans hparse
  rw [Function.isRegular, Bool.and_eq_true] at hregular
  have hopen : Rereads { module := m } [f.header ++ " \x7b" ++ f.comment.getD ""]
      { module := m, current := some { f with blocks := [] } } := by
    refine rereads_topLine hline htop ?_
    rw [Reader.addTopLine, hparse']
    rfl
  have hclose : Rereads { module := m, current := some f } ["\x7d"]
      { module := m.addFunction f } := .singleton ⟨by decide, by decide⟩ rfl
  exact hopen.append ((Function.rereads_blocks style hf.toWrittenBody hregular.2).append hclose)

theorem rereads_definitions (style : LabelStyle) (h : m.Written)
    (hregular : m.functions.all Function.isRegular = true) {m₀ : Module}
    (hfunctions : m₀.functions = m.declarations) :
    Rereads { module := m₀ } ([""].intercalate (m.definitions.map (Function.definitionLines style)))
      { module := { m₀ with functions := m.functions } } := by
  have hlines := Rereads.intercalate
    (fun fs => { module := { m₀ with functions := m.declarations ++ fs } })
    (Function.definitionLines style) [""] (fun _ => .blank rfl)
    fun front f back (hfs : m.definitions = front ++ f :: back) => ?_
  · rw [← h.order, List.append_nil, ← hfunctions] at hlines
    exact hlines
  · obtain ⟨hmem, hf⟩ := List.mem_filter.1 (hfs ▸ (by simp) : f ∈ m.definitions)
    rw [Bool.not_eq_true'] at hf
    have hdefinition := rereads_definition (m := { m₀ with functions := m.declarations ++ front })
      style (h.functions f hmem) (List.all_eq_true.1 hregular f hmem) hf
    rw [addFunction, if_neg (by rw [hf]; decide)] at hdefinition
    rw [← List.append_assoc]
    exact hdefinition

/-! ## Modules -/

/-- All lines of a module are read again, and add what they were written for. -/
theorem rereads_lines (style : LabelStyle) (h : m.Written) (hregular : m.isRegular = true) :
    Rereads {} (m.lines style) { module := m } := by
  rw [isRegular, Bool.and_eq_true] at hregular
  obtain ⟨hfunctions, hglobals⟩ := hregular
  have hid : Rereads {} m.moduleId.toList { module := { moduleId := m.moduleId } } :=
    rereads_moduleId h rfl
  have htarget := rereads_withGap
    (rereads_targetInfo h (rfl : ({ moduleId := m.moduleId } : Module).targetInfo = []))
  have hdeclarations := rereads_withGap (rereads_declarations h hfunctions
    (rfl : ({ moduleId := m.moduleId, targetInfo := m.targetInfo } : Module).functions = []))
  have hvariables := rereads_withGap (rereads_globals h hglobals
    (rfl : ({ moduleId := m.moduleId, targetInfo := m.targetInfo,
              functions := m.declarations } : Module).globals = []))
  have hdefinitions := rereads_definitions style h hfunctions
    (rfl : ({ moduleId := m.moduleId, targetInfo := m.targetInfo, functions := m.declarations,
              globals := m.globals } : Module).functions = m.declarations)
  have hmetadata := rereads_afterGap (rereads_metadata h
    (rfl : ({ moduleId := m.moduleId, targetInfo := m.targetInfo, functions := m.functions,
              globals := m.globals } : Module).metadata = []))
  exact ((((hid.append htarget).append hdeclarations).append hvariables).append
    hdefinitions).append hmetadata

theorem toList_text (style : LabelStyle) (m : Module) :
    (m.text style).toList = ((m.lines style).map String.toList).flatMap (· ++ ['\n']) := by
  rw [text, String.toList_join, List.flatMap_map, List.flatMap_map]
  simp

/-- A module that was read, with its phis eliminated or not, is read back from its text. -/
theorem Written.parse_text (h : m.Written) (hregular : m.isRegular = true) (style : LabelStyle)
    (file : String) : parse file (m.text style) = .ok m := by
  have hlines := rereads_lines style h hregular
  have hsplit : Text.lines (m.text style).toList = (m.lines style).map String.toList := by
    rw [toList_text, lines_flatMap]
    intro l hl
    obtain ⟨t, ht, rfl⟩ := List.mem_map.1 hl
    exact hlines.isLine t ht
  have hsame : ((m.lines style).map String.toList).map String.ofList = m.lines style := by
    simp
  rw [parse, hsplit, hsame, Reader.parseLines_eq_ok_iff]
  exact hlines.reads

/-- The text of a regular module, as it was read or with its phis eliminated, is read as that
module again: in either label style, and whatever the files are called. -/
theorem parse_text_of_parse {file file' text : String} {m m' : Module} {n : Nat}
    (h : parse file text = .ok m) (hm : m' = m ∨ m.eliminatePhis = (m', .ok n))
    (hregular : m'.isRegular = true) (style : LabelStyle) :
    parse file' (m'.text style) = .ok m' := by
  have hwritten := written_of_parse h
  rcases hm with rfl | helim
  · exact hwritten.parse_text hregular style file'
  · exact (hwritten.eliminatePhis helim).parse_text hregular style file'

/-- A definition with a numeric label, a phi and a comment. -/
def passText : String :=
  "define i8 @pass(i8 %n) \x7b\n0:\n  %i = phi i8 [ %n, %0 ]\n  ret i8 %i ; out\n\x7d\n"

/-- Both are regular and read back: the module with its phi, and the one without. -/
theorem parse_text_of_parse_pass : ∃ m m', parse anonymousFile passText = .ok m ∧
    m.eliminatePhis = (m', .ok 1) ∧ m.isRegular = true ∧ m'.isRegular = true ∧
      ∀ style, parse anonymousFile (m.text style) = .ok m ∧
        parse anonymousFile (m'.text style) = .ok m' := by
  have hcheck : (parse anonymousFile passText).toOption.any (fun m =>
      m.eliminatePhis.2.toOption == some 1 && m.isRegular && m.eliminatePhis.1.isRegular) = true := by
    decide +kernel
  cases hparse : parse anonymousFile passText with
  | error e =>
      rw [hparse] at hcheck
      cases hcheck
  | ok m =>
      rw [hparse] at hcheck
      simp only [Except.toOption, Option.any_some, Bool.and_eq_true, beq_iff_eq] at hcheck
      obtain ⟨⟨hcount, hregular⟩, hregular'⟩ := hcheck
      have helim : m.eliminatePhis = (m.eliminatePhis.1, .ok 1) := by
        refine Prod.ext rfl ?_
        cases h : m.eliminatePhis.2 with
        | error e =>
            rw [h] at hcount
            cases hcount
        | ok n =>
            rw [h] at hcount
            exact congrArg Except.ok (Option.some.inj hcount)
      exact ⟨m, _, rfl, helim, hregular, hregular', fun style =>
        ⟨parse_text_of_parse (n := 1) hparse (.inl rfl) hregular style,
          parse_text_of_parse hparse (.inr helim) hregular' style⟩⟩

/-- Text that is no longer read as the module it was written for. -/
def isLost (m : Module) : Bool :=
  (parse anonymousFile (m.text .comment)).toOption != some m

/-- What regular modules leave out is lost. Without any instruction: a declaration whose last
word looks like the start of a body, a carriage return or, behind a numeric label, a blank at the
end of a comment, and metadata with blanks as a value. In a store: metadata at its end, which
is read as its tag, and metadata with a quote. In a cast: a type that starts as its keyword. -/
theorem isLost_of_irregular :
    (∀ text ∈ ["declare i8 @f() x\x7b nounwind\n", "declare i8 @f() ; c\r\r\n",
        "define i8 @f() \x7b\n0: ; c \n\x7d\n", "@g = global !a b\n"],
      (parse anonymousFile text).toOption.any (fun m =>
        m.functions.all (·.instructions.isEmpty) && m.isLost) = true) ∧
    ∀ p ∈ [("store i8 1, metadata !x",
          { opcode := .store, operands := [.int 1 "i8", .metadata "!x"] }),
        ("store a\"b !c\", i8* %p",
          { opcode := .store, operands := [.metadata "!c\"", .temp "p" "i8*"] }),
        ("%y = bitcast i8 %x to \tto b",
          { result := some "y", opcode := .cast .bitcast, type := some "i8",
            operands := [.temp "x" "i8"], castType := some "to b" : Instruction })],
      (parse anonymousFile ("define i8 @f() \x7b\n" ++ p.1 ++ "\n\x7d\n")).toOption.any (fun m =>
        m.functions.flatMap Function.instructions == [p.2] && m.isLost) = true := by
  decide +kernel

end Module

end SsaIr
