import SsaIr.Proofs.Module.LabelLine
import SsaIr.Proofs.Module.OneLine

/-!
# Label styles

The texts of a module in both label styles are read in lockstep, also where they are not read
back, and where one of them cannot be read, the other cannot either. What they are read as
differs in blanks at the ends of comments behind numeric labels.
-/

namespace SsaIr

open Text
open SsaIr.Module (TopLine Reader)
open SsaIr.Function (BodyLine)

variable {change : String → String}

/-! ## Lockstep -/

namespace Module.Reader

variable {P Q R : Reader → Prop} {ls ls' ks ks' : List String} {r r' : Reader} {m : Module}
  {f : Function} {l l' : String}

/-- The state after lines of a text. -/
def readText (r : Reader) (ls : List String) : Except ParseError Reader :=
  r.readAll (ls.map chomped)

/-- From states that differ in comments behind numeric labels, the lines of two texts lead to such
states again, or both cannot be read; the first state is of one kind in front of the lines and of
another kind behind them. -/
def Lockstep (change : String → String) (P Q : Reader → Prop) (ls ls' : List String) : Prop :=
  ∀ r, P r → (r.recomment (.numbered change)).readText ls' =
      (r.readText ls).map (recomment (.numbered change)) ∧
    ∀ r', r.readText ls = .ok r' → Q r'

theorem Lockstep.nil : Lockstep change P P [] [] := by
  intro r hr
  refine ⟨rfl, fun r' h => ?_⟩
  obtain rfl := Except.ok.inj h
  exact hr

theorem Lockstep.append (h : Lockstep change P Q ls ls') (h' : Lockstep change Q R ks ks') :
    Lockstep change P R (ls ++ ks) (ls' ++ ks') := by
  intro r hr
  obtain ⟨heq, hok⟩ := h r hr
  have hsplit : ∀ (r : Reader) (ls ks : List String),
      r.readText (ls ++ ks) = r.readText ls >>= fun r => r.readText ks := by
    intro r ls ks
    rw [readText, List.map_append, readAll_append]
    rfl
  rw [hsplit, hsplit, heq]
  cases hread : r.readText ls with
  | error e => exact ⟨rfl, fun r' h => by cases h⟩
  | ok r₁ => exact h' r₁ (hok r₁ hread)

theorem Lockstep.cons (h : Lockstep change P Q [l] [l']) (h' : Lockstep change Q R ls ls') :
    Lockstep change P R (l :: ls) (l' :: ls') := h.append h'

theorem Lockstep.map {α : Type} {as : List α} {line line' : α → String}
    (h : ∀ a ∈ as, Lockstep change P P [line a] [line' a]) :
    Lockstep change P P (as.map line) (as.map line') := by
  induction as with
  | nil => exact .nil
  | cons a as ih =>
      obtain ⟨ha, has⟩ := List.forall_mem_cons.1 h
      exact ha.cons (ih has)

theorem Lockstep.intercalate {α : Type} {as : List α} {parts parts' : α → List String}
    {sep : List String} (hsep : Lockstep change P P sep sep)
    (h : ∀ a ∈ as, Lockstep change P P (parts a) (parts' a)) :
    Lockstep change P P (sep.intercalate (as.map parts)) (sep.intercalate (as.map parts')) := by
  induction as with
  | nil => exact .nil
  | cons a as ih =>
      obtain ⟨ha, has⟩ := List.forall_mem_cons.1 h
      cases as with
      | nil => simpa only [List.map_cons, List.map_nil, List.intercalate_singleton] using ha
      | cons b as =>
          rw [List.map_cons, List.map_cons] at ih
          simp only [List.map_cons, List.intercalate_cons_cons] at ih ⊢
          exact (ha.append hsep).append (ih has)

theorem readText_singleton (r : Reader) (l : String) :
    r.readText [l] = r.step (chomp l.toList) := by
  rw [readText, List.map_singleton, readAll_cons, chomped, String.toList_ofList]
  cases r.step (chomp l.toList) with
  | error e => rfl
  | ok r => rfl

theorem Lockstep.of_step (h : ∀ r, P r →
      (r.recomment (.numbered change)).step (chomp l'.toList) =
          (r.step (chomp l.toList)).map (recomment (.numbered change)) ∧
        ∀ r', r.step (chomp l.toList) = .ok r' → Q r') : Lockstep change P Q [l] [l'] := by
  intro r hr
  rw [readText_singleton, readText_singleton]
  exact h r hr

/-- Outside of any function. -/
def AtTop (r : Reader) : Prop := r.current = none

/-- Inside the body of a function. -/
def InBody (r : Reader) : Prop := ∃ f, r.current = some f

theorem current_of_addTopLine {top : TopLine} (h : addTopLine m top = .ok r')
    (htop : ∀ header comment, top ≠ .define header comment) : r'.current = none := by
  cases top with
  | blank | moduleId text | targetInfo text | metadata text =>
      obtain rfl := Except.ok.inj h
      rfl
  | global code comment | declare header comment =>
      obtain ⟨_, -, rfl⟩ := map_eq_ok_iff.1 h
      rfl
  | define header comment => exact absurd rfl (htop header comment)
  | unknown code => cases h

theorem recomment_addTopLine_numbered (m : Module) (top : TopLine) :
    addTopLine (m.recomment (.numbered change)) top =
      (addTopLine m top).map (recomment (.numbered change)) := by
  rw [← recomment_addTopLine, TopLine.recomment_numbered]

theorem lockstep_topLine
    (htop : ∀ header comment, TopLine.ofLine (chomp l.toList) ≠ .define header comment) :
    Lockstep change AtTop AtTop [l] [l] := by
  apply Lockstep.of_step
  rintro ⟨m, current⟩ hcurrent
  obtain rfl : current = none := hcurrent
  exact ⟨recomment_addTopLine_numbered m _, fun r' h => current_of_addTopLine h htop⟩

theorem lockstep_define {s : List Char} (hl : l.toList = "define ".toList ++ s) :
    Lockstep change AtTop InBody [l] [l] := by
  apply Lockstep.of_step
  rintro ⟨m, current⟩ hcurrent
  obtain rfl : current = none := hcurrent
  refine ⟨recomment_addTopLine_numbered m _, fun r' h => ?_⟩
  change addTopLine m _ = _ at h
  rw [hl, chomp_append fun _ => by decide] at h
  rcases topLine_define (chomp s) with ⟨header, comment, hline⟩ | ⟨code, hline⟩
  · rw [hline] at h
    obtain ⟨f, -, rfl⟩ := map_eq_ok_iff.1 h
    exact ⟨_, rfl⟩
  · rw [hline] at h
    cases h

/-- Lines of a body that say the same but for a comment behind a numeric label. -/
theorem lockstep_bodyLine {body : BodyLine} (hbody : BodyLine.ofLine (chomp l.toList) = body)
    (hbody' : BodyLine.ofLine (chomp l'.toList) = body.recomment (.numbered change))
    (hclose : body ≠ .close) : Lockstep change InBody InBody [l] [l'] := by
  apply Lockstep.of_step
  rintro ⟨m, _⟩ ⟨f, rfl⟩
  rw [step_eq_take, step_eq_take, hbody, hbody', ← recomment_take]
  refine ⟨rfl, fun r' h => ?_⟩
  rw [take_body hclose] at h
  obtain ⟨g, -, rfl⟩ := map_eq_ok_iff.1 h
  exact ⟨g, rfl⟩

theorem lockstep_close : Lockstep change InBody AtTop ["\x7d"] ["\x7d"] := by
  apply Lockstep.of_step
  rintro ⟨m, _⟩ ⟨f, rfl⟩
  have hclose : BodyLine.ofLine (chomp "\x7d".toList) = .close := rfl
  rw [step_eq_take, step_eq_take, hclose]
  refine ⟨recomment_take ⟨m, some f⟩ (TopLine.ofLine _) .close, fun r' h => ?_⟩
  obtain rfl := Except.ok.inj h
  rfl

theorem lockstep_blank_topLine : Lockstep change AtTop AtTop [""] [""] :=
  lockstep_topLine fun _ _ h => by cases h

theorem lockstep_blank_bodyLine : Lockstep change InBody InBody [""] [""] :=
  lockstep_bodyLine (show BodyLine.ofLine (chomp "".toList) = .blank from rfl) rfl (by simp)

theorem lockstep_instruction (i : Instruction) :
    Lockstep change InBody InBody [i.line] [i.line] := by
  obtain ⟨c, t, htext, hc⟩ := startsInstruction_text i
  have hline : chomp i.line.toList =
      ' ' :: ' ' :: c :: chomp (t ++ (i.comment.map String.toList).getD []) := by
    have hlast : ([' ', ' ', c] : List Char).getLast? ≠ some '\r' := by
      intro hr
      obtain rfl := Option.some.inj hr
      exact absurd hc (by decide)
    rw [Instruction.toList_line, htext]
    exact chomp_append fun _ => hlast
  obtain ⟨hclose, hlabel⟩ :=
    ofLine_instruction_head hc (chomp (t ++ (i.comment.map String.toList).getD []))
  rw [← hline] at hclose hlabel
  refine lockstep_bodyLine rfl ?_ hclose
  cases hbody : BodyLine.ofLine (chomp i.line.toList) with
  | blank | close | instruction code comment => rfl
  | label name comment =>
      have hname : isNumeric (String.ofList name).toList = false := by
        rw [String.toList_ofList]
        exact hlabel name comment hbody
      rw [BodyLine.recomment, CommentRule.numbered_block hname]

theorem lockstep_label {b : Block} (hlabel : isIdentifier b.label.toList = true)
    (hcomment : IsComment b.comment) (htrimmed : b.TrimmedBy change) :
    Lockstep change InBody InBody [b.labelLine .line] [b.labelLine .comment] := by
  have hline : BodyLine.ofLine (chomp (b.labelLine .line).toList) =
      .label b.label.toList (b.comment.map chomped) := by
    rw [Function.toList_labelLine, if_neg (by simp)]
    exact ofLine_chomp_label hlabel hcomment
  refine lockstep_bodyLine hline ?_ (by simp)
  rw [BodyLine.recomment, String.ofList_toList]
  cases hnumeric : b.hasNumericLabel with
  | true =>
      have hchange : (CommentRule.numbered change).block b.label (b.comment.map chomped) =
          b.comment.map trimComment := by
        refine (if_pos hnumeric).trans ?_
        rw [Option.map_map]
        exact Option.map_congr (htrimmed hnumeric)
      rw [Function.toList_labelLine, if_pos ⟨hnumeric, rfl⟩, hchange]
      exact ofLine_chomp_labelComment hnumeric hcomment
  | false =>
      have hsame : b.labelLine .comment = b.labelLine .line := by simp [Block.labelLine, hnumeric]
      rw [hsame, hline, CommentRule.numbered_block hnumeric]

theorem lockstep_block {b : Block} {scope : List String} (hb : b.Written scope)
    (htrimmed : b.TrimmedBy change) :
    Lockstep change InBody InBody (b.lines .line) (b.lines .comment) :=
  (lockstep_label hb.label hb.comment htrimmed).cons (.map fun i _ => lockstep_instruction i)

theorem lockstep_definition (hf : f.Written) (hdefinition : f.isDeclaration = false)
    (htrimmed : ∀ b ∈ f.blocks, b.TrimmedBy change) :
    Lockstep change AtTop AtTop (f.definitionLines .line) (f.definitionLines .comment) := by
  have hheader : (f.header ++ " \x7b" ++ f.comment.getD "").toList =
      "define ".toList ++ (f.headerText ++ (f.comment.map String.toList).getD []) := by
    rw [Function.toList_definitionLine hdefinition, Function.headerLine, hdefinition,
      if_neg Bool.false_ne_true, List.append_assoc]
  have hblocks : Lockstep change InBody InBody
      ([""].intercalate (f.blocks.map (Block.lines .line)))
      ([""].intercalate (f.blocks.map (Block.lines .comment))) :=
    .intercalate lockstep_blank_bodyLine fun b hb =>
      lockstep_block (hf.blocks b hb) (htrimmed b hb)
  exact (lockstep_define hheader).cons (hblocks.append lockstep_close)

theorem lockstep_declaration (hf : f.isDeclaration = true) :
    Lockstep change AtTop AtTop [f.declarationLine] [f.declarationLine] := by
  refine lockstep_topLine ?_
  rw [Function.toList_declarationLine hf, Function.headerLine, if_pos hf, List.append_assoc,
    chomp_append fun _ => by decide]
  refine topLine_ne_define (c := 'd') (by decide) (by decide) fun hprefix => ?_
  have hprefix : "define ".toList <+: "declare ".toList ++
    chomp (f.headerText ++ (f.comment.map String.toList).getD []) := hprefix
  simp [List.cons_prefix_cons] at hprefix

theorem lockstep_global (g : Global) :
    Lockstep change AtTop AtTop [g.text ++ g.comment.getD ""]
      [g.text ++ g.comment.getD ""] := by
  refine lockstep_topLine ?_
  rw [String.toList_append, Global.toList_text, List.cons_append, ← List.singleton_append,
    chomp_append fun _ => by decide]
  exact topLine_ne_define (c := '@') (by decide) (by decide) fun hprefix => by
    simp [List.cons_prefix_cons] at hprefix

/-- A line that is kept is read as it was. -/
theorem lockstep_kept {top : TopLine} (hl : IsLine l.toList) (htop : TopLine.ofLine l.toList = top)
    (hdefine : ∀ header comment, top ≠ .define header comment) :
    Lockstep change AtTop AtTop [l] [l] :=
  lockstep_topLine (by rwa [chomp_of_last hl.last, htop])

theorem lockstep_withGap (h : Lockstep change AtTop AtTop ls ls) :
    Lockstep change AtTop AtTop (withGap ls) (withGap ls) := by
  rw [withGap]
  split
  · exact .nil
  · exact h.append lockstep_blank_topLine

theorem lockstep_afterGap (h : Lockstep change AtTop AtTop ls ls) :
    Lockstep change AtTop AtTop (afterGap ls) (afterGap ls) := by
  rw [afterGap]
  split
  · exact .nil
  · exact lockstep_blank_topLine.cons h

theorem Lockstep.each (h : ∀ l ∈ ls, Lockstep change P P [l] [l]) :
    Lockstep change P P ls ls := by
  have hmap : Lockstep change P P (ls.map id) (ls.map id) := .map h
  rwa [List.map_id] at hmap

/-- The texts of a module in both styles are read in lockstep. -/
theorem lockstep_lines (h : m.Written)
    (htrimmed : ∀ f ∈ m.functions, ∀ b ∈ f.blocks, b.TrimmedBy change) :
    Lockstep change AtTop AtTop (m.lines .line) (m.lines .comment) := by
  have hid : Lockstep change AtTop AtTop m.moduleId.toList m.moduleId.toList := by
    refine .each fun t ht => ?_
    obtain ⟨line, hline, htop⟩ := h.moduleId t (Option.mem_toList.1 ht)
    obtain ⟨hsubset, hsolid, hagain⟩ := TopLine.ofLine_moduleId htop
    exact lockstep_kept (hsolid.isLine fun hmem => hline (hsubset hmem)) hagain (by simp)
  have htarget : Lockstep change AtTop AtTop m.targetInfo m.targetInfo := by
    refine .each fun t ht => ?_
    obtain ⟨line, hline, htop⟩ := h.targetInfo t ht
    obtain ⟨htext, hagain⟩ := TopLine.ofLine_targetInfo htop
    exact lockstep_kept (isLine_of_eq_trim htext hline) hagain (by simp)
  have hmetadata : Lockstep change AtTop AtTop m.metadata m.metadata := by
    refine .each fun t ht => ?_
    obtain ⟨line, hline, htop⟩ := h.metadata t ht
    obtain ⟨htext, hagain⟩ := TopLine.ofLine_metadata htop
    exact lockstep_kept (isLine_of_eq_trim htext hline) hagain (by simp)
  have hdeclarations : Lockstep change AtTop AtTop
      (m.declarations.map Function.declarationLine)
      (m.declarations.map Function.declarationLine) :=
    .map fun f hf => lockstep_declaration (List.mem_filter.1 hf).2
  have hglobals : Lockstep change AtTop AtTop
      (m.globals.map fun g => g.text ++ g.comment.getD "")
      (m.globals.map fun g => g.text ++ g.comment.getD "") :=
    .map fun g _ => lockstep_global g
  have hdefinitions : Lockstep change AtTop AtTop
      ([""].intercalate (m.definitions.map (Function.definitionLines .line)))
      ([""].intercalate (m.definitions.map (Function.definitionLines .comment))) := by
    refine .intercalate lockstep_blank_topLine fun f hf => ?_
    obtain ⟨hmem, hdefinition⟩ := List.mem_filter.1 hf
    exact lockstep_definition (h.functions f hmem) (by simpa using hdefinition) (htrimmed f hmem)
  exact ((((hid.append (lockstep_withGap htarget)).append
    (lockstep_withGap hdeclarations)).append (lockstep_withGap hglobals)).append
      hdefinitions).append (lockstep_afterGap hmetadata)

end Module.Reader

/-! ## Modules -/

namespace Module

open Reader (readAll)

variable {m m' : Module} {file file' text : String}

theorem parse_text (h : m.Written) (style : LabelStyle) (file : String) :
    parse file (m.text style) = parseLines file ((m.lines style).map chomped) := by
  have hnewline : ∀ l ∈ (m.lines style).map String.toList, '\n' ∉ l :=
    List.forall_mem_map.2 (h.newline_lines style)
  rw [parse, toList_text, lines_flatMap_newline hnewline, List.map_map, List.map_map]
  rfl

/-- What is read of the text with comment lines is what is read of the text with label lines, with
the comments behind numeric labels changed. -/
theorem toOption_parse_text (h : m.Written)
    (htrimmed : ∀ f ∈ m.functions, ∀ b ∈ f.blocks, b.TrimmedBy change) (file : String) :
    (parse file (m.text .comment)).toOption =
      (parse file (m.text .line)).toOption.map (recomment (.numbered change)) := by
  have hread : readAll {} ((m.lines .comment).map chomped) =
      (readAll {} ((m.lines .line).map chomped)).map (Reader.recomment (.numbered change)) :=
    (Reader.lockstep_lines h htrimmed {} rfl).1
  have hok : ∀ (style : LabelStyle) (m' : Module), parse file (m.text style) = .ok m' ↔
      readAll {} ((m.lines style).map chomped) = .ok { module := m' } := fun style m' => by
    rw [parse_text h, Reader.parseLines_eq_ok_iff, Reader.readAll_eq_ok_iff]
  refine Option.ext fun m' => ?_
  rw [toOption_eq_some_iff, hok, hread, map_eq_ok_iff, Option.map_eq_some_iff]
  constructor
  · rintro ⟨⟨m₁, current⟩, hm₁, heq⟩
    obtain rfl : current = none := Option.map_eq_none_iff.1 (congrArg Reader.current heq)
    exact ⟨m₁, toOption_eq_some_iff.2 ((hok .line m₁).2 hm₁), congrArg Reader.module heq⟩
  · rintro ⟨m₁, hm₁, rfl⟩
    exact ⟨_, (hok .line m₁).1 (toOption_eq_some_iff.1 hm₁), rfl⟩

theorem recomment_numbered_id (m : Module) : m.recomment (.numbered id) = m := by
  have hinstruction : Instruction.recomment (.numbered id) = id := rfl
  have hblock : Block.recomment (.numbered id) = id := by
    funext b
    rw [Block.recomment, hinstruction, List.map_id, CommentRule.numbered]
    dsimp only
    rw [Option.map_id, id_eq, ite_self]
    rfl
  have hfunction : Function.recomment (.numbered id) = id := by
    funext f
    rw [Function.recomment, hblock, List.map_id]
    rfl
  have hglobal : Global.recomment (.numbered id) = id := rfl
  rw [recomment, hfunction, hglobal, List.map_id, List.map_id]

/-- The module without blanks at the ends of comments behind numeric labels. -/
def withTrimmedLabels (m : Module) : Module := m.recomment (.numbered trimComment)

/-- Reading the text with comment lines gives the module that the text with label lines gives, or
none if that gives none, without the blanks at the ends of comments behind numeric labels. Where
no such comment ends in a blank, both give the same. -/
theorem parse_text_of_labelStyles (h : parse file text = .ok m) (file' : String) :
    (parse file' (m.text .comment)).toOption =
        (parse file' (m.text .line)).toOption.map withTrimmedLabels ∧
      ((∀ f ∈ m.functions, ∀ b ∈ f.blocks, b.hasNumericLabel = true → ∀ c ∈ b.comment,
          (chomp c.toList).getLast?.all (!isBlank ·) = true) →
        (parse file' (m.text .comment)).toOption = (parse file' (m.text .line)).toOption) := by
  have hwritten := written_of_parse h
  refine ⟨toOption_parse_text hwritten (fun _ _ _ _ _ c _ => trimComment_chomped c) file',
    fun hlast => ?_⟩
  have htrimmed : ∀ f ∈ m.functions, ∀ b ∈ f.blocks, b.TrimmedBy id := by
    intro f hf b hb hnumeric c hc
    have htrim := trimEnd_of_last (hlast f hf b hb hnumeric c hc)
    rw [trimEnd_chomp] at htrim
    rw [id_eq, chomped, trimComment, htrim]
  have hsame := toOption_parse_text hwritten htrimmed file'
  rwa [funext recomment_numbered_id, Option.map_id'] at hsame

/-- A module whose only block has a number and a comment. -/
def remarkedBlock (comment : String) : Module where
  functions := [{ name := "f", returnType := "i8", blocks := [{ label := "0", comment }] }]

theorem parse_text_of_labelStyles_remarkedBlock :
    parse anonymousFile "define i8 @f() \x7b\n0: ; c\n\x7d\n" = .ok (remarkedBlock " ; c") ∧
      (parse anonymousFile ((remarkedBlock " ; c").text .comment)).toOption =
        some (remarkedBlock " ; c") ∧
      (parse anonymousFile ((remarkedBlock " ; c").text .line)).toOption =
        some (remarkedBlock " ; c") := by
  have hparse : parse anonymousFile "define i8 @f() \x7b\n0: ; c\n\x7d\n" =
      .ok (remarkedBlock " ; c") := by decide +kernel
  have hline : (parse anonymousFile ((remarkedBlock " ; c").text .line)).toOption =
      some (remarkedBlock " ; c") := by decide +kernel
  have hsame := (parse_text_of_labelStyles hparse anonymousFile).2 (by decide)
  exact ⟨hparse, hsame.trans hline, hline⟩

/-- A comment that ends in a blank keeps it in one label style and loses it in the other. -/
theorem labelStyles_differ : ∃ m,
    parse anonymousFile "define i8 @f() \x7b\n0: ; c \n\x7d\n" = .ok m ∧
      (parse anonymousFile (m.text .comment)).toOption = some (remarkedBlock " ; c") ∧
      (parse anonymousFile (m.text .line)).toOption = some (remarkedBlock " ; c ") ∧
      remarkedBlock " ; c" ≠ remarkedBlock " ; c " := by
  refine ⟨remarkedBlock " ; c ", ?_⟩
  decide +kernel

end Module

end SsaIr
