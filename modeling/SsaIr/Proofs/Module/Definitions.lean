import SsaIr.Proofs.Function.Placement
import SsaIr.Proofs.Module.Written

/-!
# The definitions of a text

The definitions of a module that was read are those of its text, one for one and in order, each with
the body that stands between its header and the next closing brace.
-/

namespace SsaIr.Module

open SsaIr.Text SsaIr.Function

variable {m : Module} {file text : String} {l : List Char} {ls : List String} {f g : Function}
  {r r' : Reader}

/-- A definition as it stands in a text: the line of its header and the lines of its body. -/
structure DefinitionText where
  header : List Char
  body : List (List Char) := []
  deriving DecidableEq

/-- Whether a line at module level is the header of a definition. -/
def isDefinition (line : List Char) : Bool :=
  match TopLine.ofLine line with
  | .define .. => true
  | _ => false

/-- The definitions that the lines complete, where the first lines may go on with one. -/
def definitionTexts : Option DefinitionText → List (List Char) → List DefinitionText
  | _, [] => []
  | none, l :: ls => definitionTexts (if isDefinition l then some { header := l } else none) ls
  | some d, l :: ls =>
    if isClosing l then d :: definitionTexts none ls
    else definitionTexts (some { d with body := d.body ++ [l] }) ls

/-- A function has the header of a definition and was read from the lines of its body. -/
structure ReadsDefinition (d : DefinitionText) (f : Function) : Prop where
  header : ∃ code g, TopLine.ofLine d.header = .define code f.comment ∧
    parseHeader false code = .ok g ∧ f = { g with blocks := f.blocks, comment := f.comment }
  body : f.ReadsBody d.body

namespace ReadsDefinition

variable {d : DefinitionText}

theorem isDeclaration (h : ReadsDefinition d f) : f.isDeclaration = false := by
  obtain ⟨code, g, -, hg, heq⟩ := h.header
  rw [heq]
  exact (of_parseHeader hg).2.2

theorem of_header {code : List Char} {comment : Option String}
    (hline : TopLine.ofLine l = .define code comment) (hg : parseHeader false code = .ok g) :
    ReadsDefinition { header := l } { g with comment } where
  header := ⟨code, g, hline, hg, rfl⟩
  body := .nil (of_parseHeader hg).1

theorem step (h : ReadsDefinition d f) (hadd : f.addBodyLine (BodyLine.ofLine l) = .ok g)
    (hclosing : isClosing l = false) : ReadsDefinition { d with body := d.body ++ [l] } g := by
  obtain ⟨code, g₀, hline, hg₀, heq⟩ := h.header
  have hblocks : g = { f with blocks := g.blocks } := eq_of_addBodyLine hadd
  refine ⟨⟨code, g₀, ?_, hg₀, ?_⟩, h.body.step hadd hclosing⟩
  · rw [hline, hblocks]
  · rw [hblocks, heq]

end ReadsDefinition

/-- What a line at module level does: it opens a function if it is the header of a definition, and
adds no definition. -/
theorem addTopLine_kind (h : Reader.addTopLine m (TopLine.ofLine l) = .ok r) :
    r.module.definitions = m.definitions ∧
      Option.Rel ReadsDefinition (if isDefinition l then some { header := l } else none)
        r.current := by
  rw [isDefinition]
  cases hline : TopLine.ofLine l with
  | define code comment =>
      rw [hline] at h
      obtain ⟨g, hg, rfl⟩ := map_eq_ok_iff.1 h
      exact ⟨rfl, .some (.of_header hline hg)⟩
  | declare code comment =>
      rw [hline] at h
      obtain ⟨g, hg, rfl⟩ := map_eq_ok_iff.1 h
      refine ⟨?_, .none⟩
      rw [definitions_addFunction, if_pos (of_parseHeader hg).2.2]
  | global code comment =>
      rw [hline] at h
      obtain ⟨g, -, rfl⟩ := map_eq_ok_iff.1 h
      exact ⟨rfl, .none⟩
  | unknown code =>
      rw [hline] at h
      cases h
  | _ =>
      rw [hline] at h
      cases h
      exact ⟨rfl, .none⟩

/-- What a line in the body of a function does: it completes the definition if it closes the body,
and is one more line of the body otherwise. -/
theorem step_body_kind {d : DefinitionText} (hd : ReadsDefinition d f)
    (hcurrent : r.current = some f) (h : r.step l = .ok r') :
    (isClosing l = true ∧ r'.module.definitions = r.module.definitions ++ [f] ∧
      Option.Rel ReadsDefinition none r'.current) ∨
    (isClosing l = false ∧ r'.module = r.module ∧
      Option.Rel ReadsDefinition (some { d with body := d.body ++ [l] }) r'.current) := by
  rw [Reader.step, hcurrent] at h
  cases hclosing : isClosing l with
  | true =>
      rw [ofLine_eq_close hclosing] at h
      obtain rfl := Except.ok.inj h
      refine .inl ⟨rfl, ?_, .none⟩
      rw [definitions_addFunction, hd.isDeclaration]
      rfl
  | false =>
      dsimp only at h
      split at h
      · next hline => exact absurd hline (ofLine_ne_close hclosing)
      · obtain ⟨g, hg, rfl⟩ := map_eq_ok_iff.1 h
        exact .inr ⟨rfl, rfl, .some (hd.step hg hclosing)⟩

/-- Reading to the end of the lines completes the definitions that stand in them, the one that is
open first. -/
theorem Reader.Reads.definitions {d : Option DefinitionText} (h : Reads r ls r')
    (hd : Option.Rel ReadsDefinition d r.current) (hend : r'.current = none) :
    ∃ fs, r'.module.definitions = r.module.definitions ++ fs ∧
      List.Forall₂ ReadsDefinition (definitionTexts d (ls.map String.toList)) fs := by
  induction h generalizing d with
  | @nil r =>
      rw [hend] at hd
      exact ⟨[], (List.append_nil _).symm, by cases hd; exact .nil⟩
  | @cons r r₁ r₂ l ls hstep hrest ih =>
      cases hcurrent : r.current with
      | none =>
          rw [hcurrent] at hd
          rw [Reader.step, hcurrent] at hstep
          obtain ⟨hdefinitions, hopen⟩ := addTopLine_kind hstep
          obtain ⟨fs, hfs, hall⟩ := ih hopen hend
          cases hd
          exact ⟨fs, by rw [hfs, hdefinitions], hall⟩
      | some f =>
          rw [hcurrent] at hd
          cases hd with
          | some hd =>
              rw [List.map_cons, definitionTexts]
              obtain ⟨hclosing, hadded, hclosed⟩ | ⟨hclosing, hsame, hopen⟩ :=
                step_body_kind hd hcurrent hstep
              · rw [if_pos hclosing]
                obtain ⟨fs, hfs, hall⟩ := ih hclosed hend
                exact ⟨f :: fs, by rw [hfs, hadded, List.append_assoc]; rfl, .cons hd hall⟩
              · rw [if_neg (Bool.eq_false_iff.1 hclosing)]
                obtain ⟨fs, hfs, hall⟩ := ih hopen hend
                exact ⟨fs, by rw [hfs, hsame], hall⟩

/-- The definitions of a module are those of its text in order, and each has the lines of its body:
their instructions one after the other, the blocks that they open, and each instruction in the block
that is open where it stands. -/
theorem definitions_of_parse (h : parse file text = .ok m) :
    List.Forall₂ ReadsDefinition (definitionTexts none (Text.lines text.toList))
      m.definitions := by
  have hreads := Reader.parseLines_eq_ok_iff.1 h
  obtain ⟨fs, hfs, hall⟩ := hreads.definitions .none rfl
  have hlines : ((Text.lines text.toList).map String.ofList).map String.toList =
      Text.lines text.toList := by
    rw [List.map_map]
    exact (List.map_congr_left fun _ _ => String.toList_ofList).trans (List.map_id' _)
  rw [hlines] at hall
  rw [show m.definitions = fs from hfs]
  exact hall

/-- A definition whose first instruction opens a block, with a block named in a comment and one
named in front of a colon, and a declaration behind it. -/
def pathText : String :=
  "define i8 @path(i8 %n) \x7b\n  %a = add i8 %n, 1 ; one\n; <label>:1 ; two\n" ++
    "  br label %stop\n\nstop:\n  ; three\n  ret i8 %a\n\x7d\ndeclare void @halt()\n"

/-- The definition in `pathText`. -/
def pathDefinition : DefinitionText where
  header := "define i8 @path(i8 %n) \x7b".toList
  body := ["  %a = add i8 %n, 1 ; one", "; <label>:1 ; two", "  br label %stop", "", "stop:",
    "  ; three", "  ret i8 %a"].map String.toList

/-- The function that it is read as. -/
def path : Function where
  name := "path"
  returnType := "i8"
  parameters := [{ name := some "n", type := "i8" }]
  blocks :=
    [{ label := "0"
       instructions := [{ result := some "a", opcode := .binary .add, type := some "i8"
                          operands := [.argument "n" "i8", .int 1 "i8"]
                          comment := some " ; one" }] },
     { label := "1", instructions := [.branch "stop"], comment := some " ; two" },
     { label := "stop"
       instructions := [{ opcode := .ret, type := some "i8", operands := [.temp "a" "i8"] }] }]

theorem definitions_of_parse_path :
    parse anonymousFile pathText = .ok { functions := [
      { name := "halt", returnType := "void", isDeclaration := true }, path] } ∧
      definitionTexts none (Text.lines pathText.toList) = [pathDefinition] ∧
      ReadsDefinition pathDefinition path ∧ path.labels = ["0", "1", "stop"] ∧
      ∃ block i, path.labels[block]? = some "stop" ∧ path.instruction? ⟨block, 0⟩ = some i ∧
        i.opcode = .ret := by
  have hparse : parse anonymousFile pathText = .ok { functions := [
      { name := "halt", returnType := "void", isDeclaration := true }, path] } := by
    decide +kernel
  have htexts : definitionTexts none (Text.lines pathText.toList) = [pathDefinition] := by
    decide +kernel
  have hall := definitions_of_parse hparse
  rw [htexts] at hall
  obtain ⟨hread, -⟩ := List.forall₂_cons.1 hall
  have hlabels := hread.body.labels
  -- The last line of the body holds an instruction, and `stop` is open in front of it.
  obtain ⟨block, i, hblock, hparsed, hi⟩ := hread.body.placed
    (["  %a = add i8 %n, 1 ; one", "; <label>:1 ; two", "  br label %stop", "", "stop:",
      "  ; three"].map String.toList) "  ret i8 %a".toList [] ("ret i8 %a".toList, none) rfl
    (by decide +kernel)
  have hret : readInstruction path.parameterNames ("ret i8 %a".toList, none) = .ok
      { opcode := .ret, type := some "i8", operands := [.temp "a" "i8"] } := by decide +kernel
  rw [hret] at hparsed
  refine ⟨hparse, htexts, hread, hlabels.trans (by decide +kernel), block, i, hblock, hi, ?_⟩
  rw [← Except.ok.inj hparsed]

end SsaIr.Module
