import SsaIr.Proofs.Module.Comments

/-!
# Comments and layout

Lines that say nothing may be put in or taken out, lines may be indented, and trailing comments
may be replaced: whether a text can be read, and as which module, stays the same but for the
comments that the module keeps.
-/

namespace SsaIr

open Text
open SsaIr.Module (TopLine Reader)
open SsaIr.Function (BodyLine)

/-- Leave out every comment. -/
def CommentRule.erase : CommentRule where
  block _ _ := none
  other _ := none
  block_none _ := rfl

/-! ## Lines with the same code -/

theorem Text.quotedAfter_eq (q : Bool) (s : List Char) :
    Nesting.quotedAfter q s = (q ^^ (s.count '"' % 2 == 1)) := by
  induction s generalizing q with
  | nil => simp [Nesting.quotedAfter]
  | cons c s ih =>
      change Nesting.quotedAfter (if c = '"' then !q else q) s = _
      rw [ih, List.count_cons]
      rcases Nat.mod_two_eq_zero_or_one (s.count '"') with hs | hs <;>
        by_cases hc : c = '"' <;> simp [hc, hs, Nat.add_mod]

/-- Lines with the same code and, where there is none, the same comment between blanks. -/
structure Alike (l l' : List Char) : Prop where
  code : trim (splitComment l').1 = trim (splitComment l).1
  remark : trim (splitComment l).1 = [] →
    trim ((splitComment l').2.getD []) = trim ((splitComment l).2.getD [])

variable {l l' blanks tail : List Char}

theorem alike_indent (l : List Char) (hblanks : Blanks blanks) : Alike l (blanks ++ l) := by
  have hcut := cutComment?_blanks_append (q := false) (s := l) hblanks
  cases hl : cutComment? false l with
  | none =>
      rw [hl] at hcut
      have hsplit : splitComment l = (l, none) := by rw [splitComment, hl]
      have hsplit' : splitComment (blanks ++ l) = (blanks ++ l, none) := by
        rw [splitComment, hcut]
        rfl
      constructor
      · rw [hsplit, hsplit', trim_blanks_append hblanks]
      · rw [hsplit, hsplit']
        exact fun _ => rfl
  | some p =>
      obtain ⟨x, y⟩ := p
      rw [hl] at hcut
      have hsplit : splitComment l = (trimEnd x, some (trailingBlanks x ++ y)) := by
        rw [splitComment, hl]
      have hsplit' : splitComment (blanks ++ l) =
          (trimEnd (blanks ++ x), some (trailingBlanks (blanks ++ x) ++ y)) := by
        rw [splitComment, hcut]
        rfl
      constructor
      · rw [hsplit, hsplit', trim_trimEnd, trim_trimEnd, trim_blanks_append hblanks]
      · rw [hsplit, hsplit', Option.getD_some, Option.getD_some,
          trim_blanks_append (blanks_trailingBlanks _),
          trim_blanks_append (blanks_trailingBlanks _)]
        exact fun _ => rfl

/-- Nothing, or blanks and what starts at a semicolon. -/
def IsTail (tail : List Char) : Prop :=
  tail = [] ∨ ∃ blanks rest, Blanks blanks ∧ tail = blanks ++ ';' :: rest

theorem alike_tail (hcode : trim (splitComment l).1 ≠ [])
    (hquotes : (splitComment l).1.count '"' % 2 = 0) (htail : IsTail tail) :
    Alike l ((splitComment l).1 ++ tail) := by
  refine ⟨?_, fun hnil => absurd hnil hcode⟩
  have hscan : scan? false (splitComment l).1 = some false := by
    obtain ⟨q, hq, -⟩ := (splits_splitComment l).scan
    rw [hq, ← quotedAfter_of_scan? hq, quotedAfter_eq, hquotes]
    rfl
  rcases htail with rfl | ⟨blanks, rest, hblanks, rfl⟩
  · rw [List.append_nil, splitComment, cutComment?_eq_none_iff.2 ⟨false, hscan⟩]
  · have hcut : cutComment? false ((splitComment l).1 ++ (blanks ++ ';' :: rest)) =
        some ((splitComment l).1 ++ blanks, ';' :: rest) := by
      refine cutComment?_eq_some_iff.2 ⟨(List.append_assoc ..).symm, ?_, rfl⟩
      rw [scan?_append, hscan, Option.bind_some, scan?_of_blanks hblanks]
    rw [splitComment, hcut, trim_trimEnd, trim_append_blanks hblanks]

/-! ## What such lines say -/

/-- In a body, lines with the same code say the same but for their comments. -/
theorem Alike.bodyLine (h : Alike l l') :
    (BodyLine.ofLine l').recomment .erase = (BodyLine.ofLine l).recomment .erase := by
  unfold BodyLine.ofLine
  dsimp only
  rw [h.code]
  split
  · next hempty =>
      rw [h.remark (List.isEmpty_iff.1 hempty)]
  · split
    · rfl
    · split <;> rfl

/-- Code of a line that is kept as it is written. -/
def IsKept (code : List Char) : Prop := TopLine.IsTarget code ∨ TopLine.IsMetadata code

instance : DecidablePred IsKept := fun _ => inferInstanceAs (Decidable (_ ∨ _))

/-- At module level, so do lines that are kept, if blanks at their ends are all that differs. -/
theorem Alike.topLine (h : Alike l l')
    (hkept : IsKept (trim (splitComment l).1) → trim l' = trim l) :
    (TopLine.ofLine l').recomment .erase = (TopLine.ofLine l).recomment .erase := by
  by_cases hcode : trim (splitComment l).1 = []
  · have hcode' : trim (splitComment l').1 = [] := h.code.trans hcode
    unfold TopLine.ofLine
    dsimp only
    rw [if_pos (List.isEmpty_iff.2 hcode'), if_pos (List.isEmpty_iff.2 hcode), h.remark hcode]
  · rw [TopLine.ofLine_eq_ofCode hcode, TopLine.ofLine_eq_ofCode (h.code ▸ hcode), h.code]
    unfold TopLine.ofCode
    split
    · next htarget => rw [hkept (.inl htarget)]
    · split
      · next hmetadata => rw [hkept (.inr hmetadata)]
      · split
        · rfl
        · split <;> rfl

/-- No code, and a comment that names neither a block nor the module. -/
structure SaysNothing (l : List Char) : Prop where
  code : trim (splitComment l).1 = []
  label : Function.labelComment? (trim ((splitComment l).2.getD [])) = none
  moduleId : after? "; ModuleID = ".toList (trim ((splitComment l).2.getD [])) = none

namespace Module.Reader

variable {r r' : Reader} {ls ls' : List String} {m : Module}

theorem step_of_saysNothing (h : SaysNothing l) (r : Reader) : r.step l = .ok r := by
  have htop : TopLine.ofLine l = .blank := by
    unfold TopLine.ofLine
    dsimp only
    rw [if_pos (List.isEmpty_iff.2 h.code), h.moduleId]
    rfl
  have hbody : BodyLine.ofLine l = .blank := by
    unfold BodyLine.ofLine
    dsimp only
    rw [if_pos (List.isEmpty_iff.2 h.code), h.label]
  rw [step_eq_take, htop, hbody]
  obtain ⟨m, current⟩ := r
  cases current <;> rfl

/-- States that differ in comments stay so over lines that say the same but for comments. -/
theorem erase_step (hr : r'.recomment .erase = r.recomment .erase)
    (htop : r.current = none →
      (TopLine.ofLine l').recomment .erase = (TopLine.ofLine l).recomment .erase)
    (hbody : (BodyLine.ofLine l').recomment .erase = (BodyLine.ofLine l).recomment .erase) :
    (r'.step l').map (recomment .erase) = (r.step l).map (recomment .erase) := by
  rw [step_eq_take, step_eq_take, ← recomment_take, ← recomment_take, hr, hbody]
  obtain ⟨m, current⟩ := r
  cases current with
  | none => rw [htop rfl]
  | some f => rfl

/-- The state after all lines, or the cause for which one of them cannot be read. -/
def readAll (r : Reader) (ls : List String) : Except ParseError Reader :=
  ls.foldlM (fun r l => r.step l.toList) r

theorem readAll_eq_ok_iff : r.readAll ls = .ok r' ↔ Reads r ls r' := by
  induction ls generalizing r with
  | nil =>
      constructor
      · intro h
        obtain rfl := Except.ok.inj h
        exact .nil
      · rintro ⟨⟩
        rfl
  | cons l ls ih =>
      rw [readAll, List.foldlM_cons, bind_eq_ok_iff]
      constructor
      · rintro ⟨r₁, hstep, hrest⟩
        exact .cons hstep (ih.1 hrest)
      · intro h
        cases h with
        | cons hstep hrest => exact ⟨_, hstep, ih.2 hrest⟩

theorem readAll_append (r : Reader) (ls ls' : List String) :
    r.readAll (ls ++ ls') = r.readAll ls >>= fun r => r.readAll ls' := List.foldlM_append

theorem readAll_cons (r : Reader) (l : String) (ls : List String) :
    r.readAll (l :: ls) = r.step l.toList >>= fun r => r.readAll ls := List.foldlM_cons

/-- Steps that agree but for comments may be followed by steps that do. -/
theorem erase_bind {x x' : Except ParseError Reader} {k k' : Reader → Except ParseError Reader}
    (hx : x'.map (recomment .erase) = x.map (recomment .erase))
    (hk : ∀ r r' : Reader, r'.recomment .erase = r.recomment .erase →
      (k' r').map (recomment .erase) = (k r).map (recomment .erase)) :
    (x' >>= k').map (recomment .erase) = (x >>= k).map (recomment .erase) := by
  cases x with
  | error e =>
      cases x' with
      | error e' => exact congrArg Except.error (Except.error.inj hx)
      | ok r' => cases hx
  | ok r =>
      cases x' with
      | error e' => cases hx
      | ok r' => exact hk r r' (Except.ok.inj hx)

theorem erase_readAll (hr : r'.recomment .erase = r.recomment .erase) :
    (r'.readAll ls).map (recomment .erase) = (r.readAll ls).map (recomment .erase) := by
  induction ls generalizing r r' with
  | nil => exact congrArg Except.ok hr
  | cons l ls ih =>
      rw [readAll_cons, readAll_cons]
      exact erase_bind (erase_step hr (fun _ => rfl) rfl) fun _ _ => ih

end Module.Reader

/-! ## Edits -/

namespace Module

open Reader (readAll)

variable {ls ls' : List String} {file file' : String} {m m' : Module}

/-- The lines are a module by themselves, so what stands behind them is outside any function. -/
def EndsAtModuleLevel (ls : List String) : Prop := ∃ m, parseLines anonymousFile ls = .ok m

/-- The module with every comment left out. -/
def withoutComments (m : Module) : Module := m.recomment .erase

/-- Changes of single lines that are a matter of comments and layout. -/
inductive Edit : List String → List String → Prop
  | insert (front back : List String) {l : String} (h : SaysNothing l.toList) :
      Edit (front ++ back) (front ++ l :: back)
  | delete (front back : List String) {l : String} (h : SaysNothing l.toList) :
      Edit (front ++ l :: back) (front ++ back)
  | indent (front back : List String) {l blanks : String} (h : Blanks blanks.toList)
      (hnewline : '\n' ∉ blanks.toList) :
      Edit (front ++ l :: back) (front ++ (blanks ++ l) :: back)
  /-- Replace the comment behind code without an open quotation; lines that are kept as they are
  written are lines of the module, not of a function. -/
  | comment (front back : List String) {l : String} {tail : List Char}
      (hcode : trim (splitComment l.toList).1 ≠ [])
      (hquotes : (splitComment l.toList).1.count '"' % 2 = 0)
      (hkept : EndsAtModuleLevel front → ¬IsKept (trim (splitComment l.toList).1))
      (htail : IsTail tail) :
      Edit (front ++ l :: back)
        (front ++ String.ofList ((splitComment l.toList).1 ++ tail) :: back)

/-- Where a line is replaced by one that says the same, but for comments, so is the reading. -/
theorem erase_readAll_replace {front back : List String} {l l' : String}
    (hline : Alike l.toList l'.toList)
    (hkept : EndsAtModuleLevel front → IsKept (trim (splitComment l.toList).1) →
      trim l'.toList = trim l.toList) :
    (readAll {} (front ++ l' :: back)).map (Reader.recomment .erase) =
      (readAll {} (front ++ l :: back)).map (Reader.recomment .erase) := by
  rw [Reader.readAll_append, Reader.readAll_append]
  cases hfront : readAll {} front with
  | error e => rfl
  | ok r =>
      have htop : r.current = none →
          (TopLine.ofLine l'.toList).recomment .erase =
            (TopLine.ofLine l.toList).recomment .erase := by
        intro hcurrent
        obtain ⟨m, current⟩ := r
        obtain rfl := hcurrent
        exact hline.topLine (hkept
          ⟨m, Reader.parseLines_eq_ok_iff.2 (Reader.readAll_eq_ok_iff.1 hfront)⟩)
      change (r.readAll (l' :: back)).map _ = (r.readAll (l :: back)).map _
      rw [Reader.readAll_cons, Reader.readAll_cons]
      exact Reader.erase_bind (Reader.erase_step rfl htop hline.bodyLine) fun _ _ =>
        Reader.erase_readAll

theorem readAll_insert {front back : List String} {l : String} (h : SaysNothing l.toList) :
    readAll {} (front ++ l :: back) = readAll {} (front ++ back) := by
  rw [Reader.readAll_append, Reader.readAll_append]
  cases readAll {} front with
  | error e => rfl
  | ok r =>
      change r.readAll (l :: back) = r.readAll back
      rw [Reader.readAll_cons, Reader.step_of_saysNothing h]
      rfl

theorem Edit.erase_readAll (h : Edit ls ls') :
    (readAll {} ls').map (Reader.recomment .erase) =
      (readAll {} ls).map (Reader.recomment .erase) := by
  cases h with
  | insert _ _ h => rw [readAll_insert h]
  | delete _ _ h => rw [readAll_insert h]
  | indent _ _ h _ =>
      refine erase_readAll_replace ?_ fun _ _ => ?_
      · rw [String.toList_append]
        exact alike_indent _ h
      · rw [String.toList_append, trim_blanks_append h]
  | comment _ _ hcode hquotes hkept htail =>
      refine erase_readAll_replace ?_ fun hfront hcode => absurd hcode (hkept hfront)
      rw [String.toList_ofList]
      exact alike_tail hcode hquotes htail

/-- Lines that lead to the same state, but for comments, are read as the same module. -/
theorem exists_of_erase_readAll (file' : String)
    (h : (readAll {} ls').map (Reader.recomment .erase) =
      (readAll {} ls).map (Reader.recomment .erase))
    (hm : parseLines file ls = .ok m) :
    ∃ m', parseLines file' ls' = .ok m' ∧ m'.withoutComments = m.withoutComments := by
  rw [Reader.readAll_eq_ok_iff.2 (Reader.parseLines_eq_ok_iff.1 hm)] at h
  obtain ⟨r, hr, herase⟩ := map_eq_ok_iff.1 h
  obtain ⟨m', current⟩ := r
  have hcurrent : current.map (Function.recomment .erase) = none :=
    congrArg Reader.current herase
  obtain rfl := Option.map_eq_none_iff.1 hcurrent
  exact ⟨m', Reader.parseLines_eq_ok_iff.2 (Reader.readAll_eq_ok_iff.1 hr),
    congrArg Reader.module herase⟩

/-- Edits of comments and layout change neither whether lines can be read nor, comments apart,
as which module. -/
theorem same_module_of_edits (file file' : String) (h : Relation.ReflTransGen Edit ls ls') :
    ((∃ m, parseLines file ls = .ok m) ↔ ∃ m', parseLines file' ls' = .ok m') ∧
      ∀ m m', parseLines file ls = .ok m → parseLines file' ls' = .ok m' →
        m'.withoutComments = m.withoutComments := by
  have herase : (readAll {} ls').map (Reader.recomment .erase) =
      (readAll {} ls).map (Reader.recomment .erase) := by
    induction h with
    | refl => rfl
    | tail _ hedit ih => exact hedit.erase_readAll.trans ih
  refine ⟨⟨?_, ?_⟩, ?_⟩
  · rintro ⟨m, hm⟩
    obtain ⟨m', hm', -⟩ := exists_of_erase_readAll file' herase hm
    exact ⟨m', hm'⟩
  · rintro ⟨m', hm'⟩
    obtain ⟨m, hm, -⟩ := exists_of_erase_readAll file herase.symm hm'
    exact ⟨m, hm⟩
  · intro m m' hm hm'
    obtain ⟨m'', hm'', heq⟩ := exists_of_erase_readAll file' herase hm
    rw [hm''] at hm'
    exact Except.ok.inj hm' ▸ heq

/-- A function with a line that only remarks something. -/
def remarkedLines : List String :=
  ["define i8 @f(i8 %a) \x7b", "; echo", "  ret i8 %a ; done", "\x7d"]

/-- The same function with remarks that nearly name a block. -/
def editedLines : List String :=
  ["define i8 @f(i8 %a) \x7b", " ; <label>: 1", "  ret i8 %a;\"; <label>:1", "\t\x7d"]

/-- The module of both, with its only comment. -/
def echo (comment : String) : Module where
  functions :=
    [{ name := "f", returnType := "i8", parameters := [{ name := some "a", type := "i8" }]
       blocks := [{ label := "0"
                    instructions := [{ opcode := .ret, type := some "i8"
                                       operands := [.argument "a" "i8"]
                                       comment := some comment }] }] }]

theorem same_module_of_edits_echo :
    Relation.ReflTransGen Edit remarkedLines editedLines ∧
      parseLines anonymousFile remarkedLines = .ok (echo " ; done") ∧
      parseLines anonymousFile editedLines = .ok (echo ";\"; <label>:1") ∧
      (echo ";\"; <label>:1").withoutComments = (echo " ; done").withoutComments := by
  have hdelete : Edit remarkedLines ["define i8 @f(i8 %a) \x7b", "  ret i8 %a ; done", "\x7d"] :=
    .delete ["define i8 @f(i8 %a) \x7b"] _ ⟨by decide, by decide, by decide⟩
  have hcomment : Edit ["define i8 @f(i8 %a) \x7b", "  ret i8 %a ; done", "\x7d"]
      ["define i8 @f(i8 %a) \x7b", "  ret i8 %a;\"; <label>:1", "\x7d"] :=
    .comment ["define i8 @f(i8 %a) \x7b"] _ (by decide) (by decide) (fun _ => by decide)
      (.inr ⟨[], "\"; <label>:1".toList, by decide, rfl⟩)
  have hindent : Edit ["define i8 @f(i8 %a) \x7b", "  ret i8 %a;\"; <label>:1", "\x7d"]
      ["define i8 @f(i8 %a) \x7b", "  ret i8 %a;\"; <label>:1", "\t\x7d"] :=
    .indent ["define i8 @f(i8 %a) \x7b", "  ret i8 %a;\"; <label>:1"] _
      (by decide : Blanks "\t".toList) (by decide)
  have hinsert : Edit ["define i8 @f(i8 %a) \x7b", "  ret i8 %a;\"; <label>:1", "\t\x7d"]
      editedLines :=
    .insert ["define i8 @f(i8 %a) \x7b"] _ ⟨by decide, by decide, by decide⟩
  have hedits : Relation.ReflTransGen Edit remarkedLines editedLines :=
    (((Relation.ReflTransGen.single hdelete).tail hcomment).tail hindent).tail hinsert
  have hbefore : parseLines anonymousFile remarkedLines = .ok (echo " ; done") := by
    decide +kernel
  have hafter : parseLines anonymousFile editedLines = .ok (echo ";\"; <label>:1") := by
    decide +kernel
  exact ⟨hedits, hbefore, hafter,
    (same_module_of_edits anonymousFile anonymousFile hedits).2 _ _ hbefore hafter⟩

end Module

end SsaIr
