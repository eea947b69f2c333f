import SsaIr.Proofs.Builder.Instructions
import SsaIr.Proofs.Module.RoundTrip

/-!
# What a builder makes is read back

A function that a session hands out has only what its calls put there. If its names are
identifiers and its types and operands are simple, the module with nothing but that function is
read back from its text, in either label style.
-/

namespace SsaIr

open Text

/-! ## Functions that sessions make -/

namespace Function

variable {f g : Function}

/-- A function as calls of a builder make it: without comments, flags and attributes, and with
instructions that calls build. -/
structure Made (f : Function) : Prop where
  header : f = { name := f.name, returnType := f.returnType, parameters := f.parameters,
                 blocks := f.blocks }
  parameters : ∀ p ∈ f.parameters, ∃ name, p = { name := some name, type := p.type }
  comments : ∀ b ∈ f.blocks, b.comment = none
  instructions : ∀ b ∈ f.blocks, ∀ i ∈ b.instructions,
    ∃ c name, Builder.Call.instruction? name c = some i

theorem Made.addParameter (h : f.Made) (name type : String) :
    ({ f with parameters := f.parameters ++ [{ name := some name, type }] } : Function).Made := by
  obtain ⟨hheader, hparameters, hcomments, hinstructions⟩ := h
  refine ⟨?_, ?_, hcomments, hinstructions⟩
  · rw [hheader]
  · exact List.forall_mem_append.2 ⟨hparameters, List.forall_mem_singleton.2 ⟨name, rfl⟩⟩

theorem Made.addBlock (h : f.Made) (label : String) : (f.addBlock { label }).Made := by
  obtain ⟨hheader, hparameters, hcomments, hinstructions⟩ := h
  refine ⟨?_, hparameters, ?_, ?_⟩
  · rw [hheader]
    rfl
  · exact List.forall_mem_append.2 ⟨hcomments, List.forall_mem_singleton.2 rfl⟩
  · exact List.forall_mem_append.2
      ⟨hinstructions, List.forall_mem_singleton.2 fun i hi => by cases hi⟩

theorem Made.addInstruction (h : f.Made) {c : Builder.Call} {name : String} {i : Instruction}
    (hi : c.instruction? name = some i) (index : Nat) :
    ({ f with blocks := f.blocks.modify index (·.add i) } : Function).Made := by
  obtain ⟨hheader, hparameters, hcomments, hinstructions⟩ := h
  refine ⟨?_, hparameters, fun b hb => ?_, fun b hb j hj => ?_⟩
  · rw [hheader]
  · rcases Builder.mem_modify_add hb with hb | ⟨b', hb', rfl⟩
    · exact hcomments b hb
    · exact hcomments b' hb'
  · rcases Builder.mem_modify_add hb with hb | ⟨b', hb', rfl⟩
    · exact hinstructions b hb j hj
    · rcases List.mem_append.1 hj with hj | hj
      · exact hinstructions b' hb' j hj
      · exact ⟨c, name, hi.trans (congrArg some (List.mem_singleton.1 hj).symm)⟩

end Function

namespace Builder

variable {b b' : Builder} {c : Call} {r : Except Error Reply} {calls : List Call} {f : Function}

/-- One call keeps the function as calls make it. -/
theorem Effect.made (h : Effect b c b' r) (hb : ∀ f ∈ b.function, f.Made) :
    ∀ f ∈ b'.function, f.Made := by
  cases h with
  | failed hn => exact hb
  | newTemp => exact hb
  | newLabel => exact hb
  | createFunction =>
    rintro f ⟨⟩
    exact ⟨rfl, fun p hp => (List.not_mem_nil hp).elim, fun b hb => (List.not_mem_nil hb).elim,
      fun b hb => (List.not_mem_nil hb).elim⟩
  | addParameter hf =>
    rintro g ⟨⟩
    exact (hb _ hf).addParameter _ _
  | createBlock hf hlabel =>
    rintro g ⟨⟩
    exact (hb _ hf).addBlock _
  | positionAtEnd hf hindex => exact hb
  | built hi hf hpoint hindex hn hreply =>
    rintro g ⟨⟩
    exact (hb _ hf).addInstruction hi _
  | hasTerminator => exact hb
  | finish =>
    rintro f ⟨⟩

theorem made_runAll (hb : ∀ f ∈ b.function, f.Made) (calls : List Call) :
    ∀ f ∈ (b.runAll calls).1.function, f.Made := by
  induction calls generalizing b with
  | nil => exact hb
  | cons c calls ih => exact ih ((b.run_effect c).made hb)

/-- The function that a session hands out. -/
theorem made_of_finish (h : ((after calls).run .finish).2 = .ok (.finished (some f))) :
    f.Made ∧ f.labels.Nodup := by
  have hf : (after calls).function = some f := Reply.finished.inj (Except.ok.inj h)
  exact ⟨made_runAll (b := {}) (by simp) calls f hf, (wellFormed_after calls).labels_nodup f hf⟩

end Builder

/-! ## Their headers and bodies are read -/

namespace Parameter

/-- A parameter with an identifier for a name is read from what it is written as. -/
theorem parse_simple {name type : String} (hname : isIdentifier name.toList = true)
    (htype : TypeToken.isSimple type = true) :
    Instruction.Argument ({ name := some name, type } : Parameter).text.toList ∧
      parse true ({ name := some name, type } : Parameter).text.toList =
        .ok { name := some name, type } ∧
      ({ name := some name, type } : Parameter).text.toList ≠ "...".toList := by
  have htext : ({ name := some name, type } : Parameter).text.toList =
      type.toList ++ ' ' :: '%' :: name.toList := by
    simp [toList_text, behindType]
  have hword := Value.isWord_cons (c := '%') (.inl rfl) hname
  have hwords : words ('%' :: name.toList) = ['%' :: name.toList] := by
    have happend := words_append (s := []) hword.unbroken hword.ne_nil rfl
    rwa [List.append_nil] at happend
  rw [htext]
  refine ⟨?_, ?_, fun hellipsis => ?_⟩
  · refine Instruction.argument_append_space (Instruction.argument_of_isSimple htype)
      (TypeToken.unbroken_of_isSimple htype) ?_ (Instruction.argument_name hname)
    have hreserved : "align" ∈ TypeToken.reserved := by decide
    exact fun halign =>
      TypeToken.ne_of_isSimple htype hreserved (String.toList_injective halign)
  · refine parse_eq_ok_iff.2 ⟨type.toList, '%' :: name.toList, ?_, ?_, by simp⟩
    · exact (TypeToken.isToken_of_isSimple htype).take_space rfl (by simp)
    · rw [hwords, List.foldlM_cons, addWord, sigilName?_cons hname, String.ofList_toList]
      rfl
  · have hspace : ' ' ∈ "...".toList := by
      rw [← hellipsis]
      simp
    exact absurd hspace (by decide)

end Parameter

namespace Function

variable {f : Function}

/-- Identifiers for names and labels, and simple types and instructions. -/
def isSimple (f : Function) : Bool :=
  isIdentifier f.name.toList && TypeToken.isSimple f.returnType &&
    f.parameters.all (fun p =>
      p.name.all (isIdentifier ·.toList) && TypeToken.isSimpleValue p.type) &&
    f.labels.all (isIdentifier ·.toList) &&
    f.instructions.all (Instruction.isSimple f.parameterNames)

/-- What was never said of a function is not written. -/
theorem Made.headerText_eq (h : f.Made) : f.headerText = f.returnType.toList ++ [' '] ++
    '@' :: (f.name.toList ++ '(' :: ([',', ' '].intercalate (f.parameters.map (·.text.toList)) ++
      ')' :: [' ', '\x7b'])) := by
  rw [headerText, parameterTexts, modifierWords, h.header]
  simp

theorem Made.parse_parameters (h : f.Made) (hsimple : f.isSimple = true) :
    ∀ p ∈ f.parameters, Instruction.Argument p.text.toList ∧
      Parameter.parse true p.text.toList = .ok p ∧ p.text.toList ≠ "...".toList := by
  simp only [isSimple, Bool.and_eq_true, List.all_eq_true] at hsimple
  intro p hp
  obtain ⟨name, heq⟩ := h.parameters p hp
  obtain ⟨hname, htype⟩ := hsimple.1.1.2 p hp
  rw [heq] at hname ⊢
  exact Parameter.parse_simple hname (TypeToken.isSimple_of_isSimpleValue htype)

theorem Made.parseHeader_headerText (h : f.Made) (hsimple : f.isSimple = true) :
    parseHeader false f.headerText = .ok { f with blocks := [] } := by
  have hparameters := h.parse_parameters hsimple
  simp only [isSimple, Bool.and_eq_true] at hsimple
  obtain ⟨⟨⟨⟨hname, htype⟩, -⟩, -⟩, -⟩ := hsimple
  have hpieces : ∀ t ∈ f.parameters.map (·.text.toList), Solid t ∧ Piece t :=
    List.forall_mem_map.2 fun p hp => ⟨(hparameters p hp).1.solid, (hparameters p hp).1.piece⟩
  have htoken := (TypeToken.isToken_of_isSimple htype).solid
  have hsolid : Solid f.name.toList :=
    .of_unbroken (unbroken_of_isIdentifier hname) (ne_nil_of_isIdentifier hname)
  have hpiece : Piece (f.returnType.toList ++ [' ']) :=
    (TypeToken.piece_of_isSimple htype).append blanks_space.piece
  have hat : '@' ∉ f.returnType.toList ++ [' '] := by
    rw [List.mem_append, not_or]
    exact ⟨TypeToken.not_mem_of_isSimple htype rfl (by decide), by decide⟩
  have htrim : trim (f.returnType.toList ++ [' ']) = f.returnType.toList := by
    rw [trim_append_blanks blanks_space, htoken.trim_eq]
  have hbracket := takeBracketed?_parens (r := [' ', '\x7b'])
    (balanced_intercalate fun t ht => (hpieces t ht).2)
  rw [h.headerText_eq]
  refine parseHeader_eq_ok_iff.2 ⟨f.returnType.toList ++ [' '], _, f.name.toList, _, _, _,
    f.parameters.map (·.text.toList), { f with blocks := [] }, [], ?_, ?_,
    splitAt?_eq_some_iff.2 ⟨rfl, not_mem_of_isIdentifier hname rfl⟩, ?_, hbracket, ?_, ?_, ?_, rfl⟩
  · refine splitAtTop?_eq_some_iff.2 ⟨rfl, splitAtTop?_eq_none_of_not_mem hat, ?_⟩
    rw [hpiece.balanced.run_eq]
    rfl
  · rw [htrim]
    exact htoken.ne_nil
  · rwa [hsolid.trim_eq]
  · rw [List.cons_append, List.tail_cons, List.dropLast_concat]
    exact Value.splitOperands_intercalate hpieces
  · intro malformed
    rw [htrim, hsolid.trim_eq, String.ofList_toList, String.ofList_toList]
    refine (foldlM_addParameter_eq_ok_iff (d := false) rfl rfl).2
      ⟨_, [], f.parameters, (List.append_nil _).symm, by simp, ?_, ?_⟩
    · rw [List.forall₂_map_left_iff, List.forall₂_same]
      exact fun p hp => ⟨(hparameters p hp).2.2, (hparameters p hp).2.1⟩
    · rw [h.header]
      rfl
  · rfl

theorem Made.plain_headerText (h : f.Made) (hsimple : f.isSimple = true) :
    Plain f.headerText := by
  have hparameters := h.parse_parameters hsimple
  simp only [isSimple, Bool.and_eq_true] at hsimple
  obtain ⟨⟨⟨⟨hname, htype⟩, -⟩, -⟩, -⟩ := hsimple
  have hlist : Plain ([',', ' '].intercalate (f.parameters.map (·.text.toList))) :=
    Instruction.plain_intercalate (List.forall_mem_map.2 fun p hp => (hparameters p hp).1.plain)
  have hfront : Plain (f.returnType.toList ++ [' ']) :=
    (TypeToken.plain_of_isSimple htype).append (by decide)
  have hopen : Plain ('@' :: (f.name.toList ++ ['('])) :=
    Plain.append (a := ['@']) (by decide) ((plain_of_isIdentifier hname).append (by decide))
  have hclose : Plain [')', ' ', '\x7b'] := by decide
  rw [h.headerText_eq]
  simpa using hfront.append (hopen.append (hlist.append hclose))

theorem Made.fromHeader (h : f.Made) (hsimple : f.isSimple = true) :
    f.FromHeader f.headerLine := by
  have hdeclaration : f.isDeclaration = false := by rw [h.header]
  have hcomment : f.comment = none := by rw [h.header]
  have hplain : Plain ("define ".toList ++ f.headerText) :=
    Plain.append (by decide) (h.plain_headerText hsimple)
  have hsolid : Solid ("define ".toList ++ f.headerText) := by
    refine ⟨rfl, ?_⟩
    rw [h.headerText_eq]
    simp [List.getLast?_append, List.getLast?_cons, isBlank]
  have hnone : IsComment none := by simp [IsComment]
  have hwritable := writable_of_plain hsolid hplain hnone rfl
  have hline : f.headerLine = "define ".toList ++ f.headerText := by
    rw [headerLine, hdeclaration, hcomment]
    simp
  rw [hline]
  refine ⟨fun hmem => (hplain _ hmem).2.2 rfl, f.headerText, ?_, ?_⟩
  · have htop := Module.TopLine.ofLine_define hwritable
    rw [Option.map_none, Option.getD_none, List.append_nil] at htop
    rw [hdeclaration, hcomment]
    exact htop
  · rw [hdeclaration, h.parseHeader_headerText hsimple, hdeclaration, hcomment]

theorem Made.written (h : f.Made) (hlabels : f.labels.Nodup) (hsimple : f.isSimple = true) :
    f.Written ∧ f.isRegular = true := by
  have hheader := h.fromHeader hsimple
  simp only [isSimple, Bool.and_eq_true, List.all_eq_true] at hsimple
  obtain ⟨⟨-, hidentifiers⟩, hinstructions⟩ := hsimple
  have hbuilt : ∀ b ∈ f.blocks, ∀ i ∈ b.instructions, ∃ c name,
      Builder.Call.instruction? name c = some i ∧ i.isSimple f.parameterNames = true := by
    intro b hb i hi
    obtain ⟨c, name, hc⟩ := h.instructions b hb i hi
    exact ⟨c, name, hc, hinstructions i (List.mem_flatMap.2 ⟨b, hb, hi⟩)⟩
  constructor
  · refine ⟨⟨fun b hb => ⟨?_, ?_, fun i hi => ?_⟩, hlabels⟩, ⟨_, hheader⟩, fun hd => ?_⟩
    · exact hidentifiers _ (List.mem_map_of_mem hb)
    · rw [h.comments b hb]
      simp [IsComment]
    · obtain ⟨c, name, hc, hi⟩ := hbuilt b hb i hi
      exact .line (Instruction.fromLine_of_isSimple hc hi)
    · rw [h.header] at hd
      cases hd
  · have hblocks : f.blocks.all Block.isRegular = true := by
      refine List.all_eq_true.2 fun b hb => ?_
      rw [Block.isRegular, h.comments b hb, Bool.and_eq_true, List.all_eq_true]
      refine ⟨by simp [isRegularComment], fun i hi => ?_⟩
      obtain ⟨c, name, hc, hi⟩ := hbuilt b hb i hi
      exact Instruction.isRegular_of_isSimple hc hi
    rw [isRegular, hblocks, h.header]
    rfl

end Function

namespace Builder

/-- The function that a session hands out is read back from its text, if its names are identifiers
and its types and operands simple. -/
theorem parse_text_of_finish {calls : List Call} {f : Function}
    (hfinish : ((after calls).run .finish).2 = .ok (.finished (some f)))
    (hsimple : f.isSimple = true) (style : LabelStyle) (file : String) :
    Module.parse file (({ functions := [f] } : Module).text style) = .ok { functions := [f] } := by
  obtain ⟨hmade, hlabels⟩ := made_of_finish hfinish
  obtain ⟨hwritten, hregular⟩ := hmade.written hlabels hsimple
  have hdeclaration : f.isDeclaration = false := by rw [hmade.header]
  refine Module.Written.parse_text ⟨by simp, by simp, by simp, by simp, ?_, ?_⟩ ?_ style file
  · exact List.forall_mem_singleton.2 hwritten
  · simp [Module.declarations, Module.definitions, hdeclaration]
  · simp [Module.isRegular, hregular]

/-- A session for the larger of two numbers, with a comparison, a call, and a phi behind numeric
labels. -/
def maxCalls : List Call :=
  [.createFunction "max" "i32", .addParameter "a" "i32", .addParameter "b" "i32",
    .createBlock "entry", .icmp .sgt (.argument "a" "i32") (.argument "b" "i32"),
    .condBranch (.temp "0" "i1") "1" "2",
    .createBlock "1", .call (.global "trace" "i32") [.argument "a" "i32"] "i32", .branch "2",
    .createBlock "2", .phi "i32" [(.argument "b" "i32", "entry"), (.temp "1" "i32", "1")],
    .ret (some (.temp "2" "i32"))]

theorem parse_text_of_finish_max : ∃ f, ((after maxCalls).run .finish).2 = .ok (.finished (some f)) ∧
    f.isSimple = true ∧ f.blocks.length = 3 ∧ ∀ style, Module.parse Module.anonymousFile
      (({ functions := [f] } : Module).text style) = .ok { functions := [f] } := by
  have hcheck :
      (after maxCalls).function.any (fun f => f.isSimple && f.blocks.length == 3) = true := by
    decide +kernel
  obtain ⟨f, hf, hsimple⟩ := (Option.any_eq_true _ _).1 hcheck
  rw [Bool.and_eq_true, beq_iff_eq] at hsimple
  have hfinish : ((after maxCalls).run .finish).2 = .ok (.finished (some f)) :=
    congrArg (fun f => Except.ok (Reply.finished f)) hf
  exact ⟨f, hfinish, hsimple.1, hsimple.2, fun style =>
    parse_text_of_finish hfinish hsimple.1 style Module.anonymousFile⟩

end Builder

end SsaIr
