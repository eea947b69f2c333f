import SsaIr.Proofs.Instruction.Operands

/-!
# Calls are read back

Behind the arguments of a call stand words, and behind these the suffixes. The words are written
with one blank in front of each, and the first comma at the top level still ends them.
-/

namespace SsaIr.Instruction

open Text

variable {scope : List String} {i i' : Instruction} {rest arg s t : List Char}
  {v : Value} {parts : List (List Char)}

/-! ## Calls -/

theorem parseCall_eq_ok_iff :
    parseCall scope i rest = .ok i' ↔
      ∃ t rest' front arguments bracketed behind args callee flags sufs parts,
        TypeToken.take rest = .ok (t, rest') ∧
        splitAtTop? '(' {} rest' = some (front, arguments) ∧
        ((trim front).head? = some '@' ∨ (trim front).head? = some '%') ∧
        takeBracketed? {} ('(' :: arguments) = some (bracketed, behind) ∧
        Value.parseTypedList scope bracketed.tail.dropLast = .ok args ∧
        Value.parse scope (trim front) (String.ofList t) = .ok callee ∧
        (splitAtTop? ',' {} (trim behind)).getD (trim behind, []) = (flags, sufs) ∧
        splitOperands sufs = .ok parts ∧
        takeSuffixes { i with
          type := some (String.ofList t)
          operands := args ++ [callee]
          flags := (words flags).map String.ofList } parts = .ok (i', []) := by
  unfold parseCall
  constructor
  · intro h
    obtain ⟨⟨t, rest'⟩, htake, h⟩ := bind_eq_ok_iff.1 h
    dsimp only at h
    split at h
    · cases h
    · next front arguments hfront =>
        split at h
        · cases h
        · next hhead =>
            split at h
            · cases h
            · next bracketed behind hbracket =>
                obtain ⟨args, hargs, h⟩ := bind_eq_ok_iff.1 h
                obtain ⟨callee, hcallee, h⟩ := bind_eq_ok_iff.1 h
                obtain ⟨parts, hparts, h⟩ := bind_eq_ok_iff.1 h
                obtain ⟨⟨i₁, extra⟩, hsuffixes, h⟩ := bind_eq_ok_iff.1 h
                obtain ⟨_, hextra, h⟩ := bind_eq_ok_iff.1 h
                obtain rfl := Except.ok.inj h
                refine ⟨t, rest', front, arguments, bracketed, behind, args, callee, _, _, parts,
                  htake, hfront, ?_, hbracket, hargs, hcallee, rfl, hparts, ?_⟩
                · by_contra hno
                  rw [not_or] at hno
                  exact hhead hno
                · cases extra with
                  | nil => exact hsuffixes
                  | cons p ps => cases hextra
  · rintro ⟨t, rest', front, arguments, bracketed, behind, args, callee, flags, sufs, parts,
      htake, hfront, hhead, hbracket, hargs, hcallee, hflags, hparts, hsuffixes⟩
    apply bind_eq_ok_iff.2
    refine ⟨(t, rest'), htake, ?_⟩
    dsimp only
    rw [hfront]
    dsimp only
    rw [if_neg (by
      rintro ⟨hat, hpercent⟩
      exact hhead.elim hat hpercent), hbracket]
    dsimp only
    refine bind_eq_ok_iff.2 ⟨args, hargs, bind_eq_ok_iff.2 ⟨callee, hcallee, ?_⟩⟩
    rw [hflags]
    exact bind_eq_ok_iff.2 ⟨parts, hparts, bind_eq_ok_iff.2 ⟨(i', []), hsuffixes, rfl⟩⟩

/-- A callee is written as it was read. -/
theorem text_of_callee {type : String} (h : Value.parse scope s type = .ok v)
    (hhead : s.head? = some '@' ∨ s.head? = some '%') (hs : trim s = s) :
    v.text.toList = s ∧ Value.IsWord s ∧ v.isRegular = true ∧
      (v.isLabel = true → type = TypeToken.label) := by
  rw [Value.parse_eq] at h
  split at h
  · cases h
  · next v' hform =>
      obtain rfl := Except.ok.inj h
      obtain ⟨hsolid, hspells⟩ := Value.spells_of_form hform
      rw [hs] at hsolid hspells
      generalize hf : Value.Form.value v' = f at hspells
      cases hspells with
      | localName hident =>
          obtain rfl := Value.Form.value.inj hf
          refine ⟨Value.text_ofLocalName _, Value.isWord_cons (.inl rfl) hident, ?_, ?_⟩
          · unfold Value.ofLocalName
            split
            · rfl
            · split <;> rfl
          · unfold Value.ofLocalName
            split
            · next htype => exact fun _ => htype
            · split <;>
              · intro hfalse
                cases hfalse
      | global hident =>
          obtain rfl := Value.Form.value.inj hf
          exact ⟨Value.text_global _, Value.isWord_cons (.inr rfl) hident, rfl,
            fun hfalse => by cases hfalse⟩
      | metadata hmetadata =>
          rw [hmetadata] at hhead
          rcases hhead with hhead | hhead <;> cases hhead
      | label hname => rcases hhead with hhead | hhead <;> cases hhead
      | int hident value =>
          rcases hhead with hhead | hhead <;>
          · have hmem := List.mem_of_mem_head? hhead
            exact absurd hmem (not_mem_of_isIdentifier hident rfl)
      | data rest => rcases hhead with hhead | hhead <;> cases hhead
      | expr _ => cases hf
  · next opcode inside hform =>
      obtain ⟨-, hspells⟩ := Value.spells_of_form hform
      rw [hs] at hspells
      generalize hf : Value.Form.expr opcode inside = f at hspells
      cases hspells with
      | expr hexpr =>
          obtain ⟨front, rfl, hlower, -⟩ := constantExpression?_eq_some_iff.1 hexpr
          cases front with
          | nil => cases hlower
          | cons c front =>
              rcases hhead with hhead | hhead <;>
              · obtain rfl := Option.some.inj hhead
                cases hlower
      | _ => cases hf

/-! ## Words behind the arguments -/

variable {ws : List (List Char)}

theorem getLast?_flatMap_space (hne : ∀ w ∈ ws, w ≠ []) :
    (ws.flatMap (' ' :: ·)).getLast? = ws.getLast?.bind List.getLast? := by
  rcases List.eq_nil_or_concat ws with rfl | ⟨init, w, rfl⟩
  · rfl
  · rw [List.concat_eq_append] at hne ⊢
    have hw : w ≠ [] := hne w (List.mem_append_right init List.mem_cons_self)
    rw [List.flatMap_append, List.flatMap_singleton, List.getLast?_append, List.getLast?_cons,
      List.getLast?_eq_some_getLast hw, List.getLast?_concat, Option.bind_some,
      List.getLast?_eq_some_getLast hw]
    rfl

/-- Where the words end and the suffixes start is found again. -/
theorem split_flags {flags suffixes list : List Char}
    (hmisses : splitAtTop? ',' {} flags = none)
    (hsuffixes : suffixes = [] ∧ list = [] ∨
      suffixes = ',' :: ' ' :: list ∧ Solid list ∧ (Nesting.run {} flags).isTop = true)
    (hsplit : splitOperands list = .ok parts) :
    ∃ flags' sufs', (splitAtTop? ',' {} (trim ((words flags).flatMap (' ' :: ·) ++ suffixes))).getD
      (trim ((words flags).flatMap (' ' :: ·) ++ suffixes), []) = (flags', sufs') ∧
      words flags' = words flags ∧ splitOperands sufs' = .ok parts := by
  have hwords : words ((words flags).flatMap (' ' :: ·)) = words flags :=
    words_flatMap fun w hw => ⟨(of_mem_words hw).1, (of_mem_words hw).2.1⟩
  have hsqueeze := squeeze_flatMap_space flags
  set text := (words flags).flatMap (' ' :: ·) with htext
  rcases hsuffixes with ⟨rfl, rfl⟩ | ⟨rfl, hlist, htop⟩
  · have hnone : splitAtTop? ',' {} (trim text) = none := by
      rw [← splitAtTop?_squeeze_eq_none_iff rfl, squeeze_trim, hsqueeze,
        splitAtTop?_squeeze_eq_none_iff rfl]
      exact hmisses
    rw [List.append_nil, hnone]
    exact ⟨_, _, rfl, by rw [words_trim, hwords], hsplit⟩
  · have hsolid : Solid (trimStart text ++ ',' :: ' ' :: list) := by
      constructor
      · have hhead := head?_trimStart text
        cases hs : trimStart text with
        | nil => rfl
        | cons c s =>
            rw [hs] at hhead
            exact hhead
      · have hlast := hlist.last
        rw [List.getLast?_eq_some_getLast hlist.ne_nil] at hlast
        rw [List.getLast?_append, List.getLast?_cons, List.getLast?_cons,
          List.getLast?_eq_some_getLast hlist.ne_nil]
        exact hlast
    have htrim : trim (text ++ ',' :: ' ' :: list) = trimStart text ++ ',' :: ' ' :: list := by
      obtain ⟨b, hb, hsplit⟩ := exists_trimStart text
      rw [hsplit, List.append_assoc, trim_blanks_append hb, ← hsplit, hsolid.trim_eq]
    have hnone : splitAtTop? ',' {} (trimStart text) = none := by
      rw [← splitAtTop?_squeeze_eq_none_iff rfl, squeeze_trimStart, hsqueeze,
        splitAtTop?_squeeze_eq_none_iff rfl]
      exact hmisses
    have hrun : (Nesting.run {} (trimStart text)).isTop = true := by
      rw [← Nesting.run_squeeze, squeeze_trimStart, hsqueeze, Nesting.run_squeeze]
      exact htop
    rw [htrim, splitAtTop?_eq_some_iff.2 ⟨rfl, hnone, hrun⟩]
    exact ⟨_, _, rfl, by rw [words_trimStart, hwords], splitOperands_space hsplit⟩

/-- A call as it is written behind its keyword. -/
def callTail (i : Instruction) (type : String) (args : List Value) (callee : Value) : List Char :=
  type.toList ++ ' ' :: (callee.text.toList ++ '(' :: (Value.listText args ++
    ')' :: (i.flags.flatMap (fun f => ' ' :: f.toList) ++ i.suffixText.toList)))

/-- What the words and the suffixes behind the arguments were read from. -/
structure FlagsOf (i i' : Instruction) (behind flags sufs : List Char) : Prop
    extends RereadSuffixes i i' sufs where
  misses : splitAtTop? ',' {} flags = none
  top : i'.suffixes ≠ [] → (Nesting.run {} flags).isTop = true
  flags_eq : i'.flags = (words flags).map String.ofList
  source : behind = flags ++ ',' :: sufs ∨ behind = flags ∧ i'.suffixes = []

theorem flagsOf_of_split {behind flags sufs : List Char}
    (hflags : (splitAtTop? ',' {} behind).getD (behind, []) = (flags, sufs))
    (hparts : splitOperands sufs = .ok parts) (h : TakesSuffixes i i' parts [])
    (hwords : i.flags = (words flags).map String.ofList) : FlagsOf i i' behind flags sufs := by
  have hs := splitOperands_eq_ok_iff.1 hparts
  have hwords' : i'.flags = (words flags).map String.ofList := by rw [h.eq, ← hwords]
  cases hsplit : splitAtTop? ',' {} behind with
  | none =>
      rw [hsplit] at hflags
      obtain ⟨rfl, rfl⟩ := Prod.mk.inj hflags
      have hnil : i'.suffixes = [] := by
        obtain ⟨sources, hsources, hsuffix⟩ := h.sources
        cases hs
        rw [List.nil_append] at hsources
        rw [← hsources] at hsuffix
        cases hsuffix' : i'.suffixes with
        | nil => rfl
        | cons p ps =>
            rw [hsuffix'] at hsuffix
            cases hsuffix
      exact ⟨h.reread_alone hs, hsplit, fun hne => absurd hnil hne, hwords', .inr ⟨rfl, hnil⟩⟩
  | some p =>
      obtain ⟨a, b⟩ := p
      rw [hsplit] at hflags
      obtain ⟨rfl, rfl⟩ := Prod.mk.inj hflags
      obtain ⟨rfl, hmisses, htop⟩ := splitAtTop?_eq_some_iff.1 hsplit
      exact ⟨h.reread_alone hs, hmisses, fun _ => htop, hwords', .inl rfl⟩

theorem FlagsOf.keeps_flags {behind flags sufs : List Char} (h : FlagsOf i i' behind flags sufs) :
    Keeps behind ((words flags).flatMap (' ' :: ·) ++ i'.suffixText.toList) := by
  rcases h.source with rfl | ⟨rfl, hnil⟩
  · exact (Keeps.words flags).append h.keeps
  · rw [suffixText_of_nil hnil, List.append_nil]
    exact Keeps.words _

theorem FlagsOf.split_again {behind flags sufs : List Char} (h : FlagsOf i i' behind flags sufs) :
    ∃ flags' sufs', (splitAtTop? ',' {} (trim ((Text.words flags).flatMap (' ' :: ·) ++
        i'.suffixText.toList))).getD
      (trim ((Text.words flags).flatMap (' ' :: ·) ++ i'.suffixText.toList), []) =
        (flags', sufs') ∧
      Text.words flags' = Text.words flags ∧ splitOperands sufs' = .ok i'.suffixes := by
  refine split_flags h.misses ?_ h.split
  by_cases hnil : i'.suffixes = []
  · left
    rw [suffixText_of_nil hnil, hnil]
    exact ⟨rfl, rfl⟩
  · right
    exact ⟨suffixText_of_ne_nil hnil, h.solid hnil, h.top hnil⟩

theorem FlagsOf.flatMap_flags {behind flags sufs : List Char}
    (h : FlagsOf i i' behind flags sufs) :
    i'.flags.flatMap (fun f => ' ' :: f.toList) = (Text.words flags).flatMap (' ' :: ·) := by
  rw [h.flags_eq, List.flatMap_map]
  simp only [String.toList_ofList]

theorem solid_paren_words (hws : ∀ w ∈ ws, Unbroken w ∧ w ≠ [])
    (hcolon : ∀ w ∈ ws, w.getLast? ≠ some ':') :
    Solid (')' :: ws.flatMap (' ' :: ·)) ∧ (')' :: ws.flatMap (' ' :: ·)).getLast? ≠ some ':' := by
  have hlast := getLast?_flatMap_space fun w hw => (hws w hw).2
  cases hw : ws.getLast? with
  | none =>
      rw [List.getLast?_eq_none_iff.1 hw]
      exact ⟨⟨rfl, rfl⟩, by decide⟩
  | some w =>
      have hmem := List.mem_of_getLast? hw
      obtain ⟨hunbroken, hne⟩ := hws w hmem
      have hsolid := (Solid.of_unbroken hunbroken hne).last
      have hnot := hcolon w hmem
      have hlast' : (')' :: ws.flatMap (' ' :: ·)).getLast? = some (w.getLast hne) := by
        rw [List.getLast?_cons, hlast, hw, Option.bind_some, List.getLast?_eq_some_getLast hne]
        rfl
      rw [List.getLast?_eq_some_getLast hne] at hsolid hnot
      rw [hlast']
      exact ⟨⟨rfl, by rwa [hlast']⟩, hnot⟩

/-- Suffixes end what stands behind the arguments as they ended it where they were read. -/
theorem FlagsOf.last_suffixes {behind flags sufs : List Char} (h : FlagsOf i i' behind flags sufs)
    (hne : i'.suffixes ≠ []) :
    Solid (')' :: ((Text.words flags).flatMap (' ' :: ·) ++ i'.suffixText.toList)) ∧
      (EndsInColon (')' :: ((Text.words flags).flatMap (' ' :: ·) ++ i'.suffixText.toList)) →
        EndsInColon behind) := by
  have hlist := h.solid hne
  have htext := suffixText_of_ne_nil hne
  constructor
  · refine ⟨rfl, ?_⟩
    have hlast := hlist.last
    rw [List.getLast?_eq_some_getLast hlist.ne_nil] at hlast
    rw [htext, List.getLast?_cons, List.getLast?_append, List.getLast?_cons,
      List.getLast?_cons, List.getLast?_eq_some_getLast hlist.ne_nil]
    exact hlast
  · intro hend
    rw [← List.cons_append] at hend
    have hsuffix := h.colon (hend.of_append (by
      rw [htext]
      have hne := hlist.squeeze_ne_nil
      rw [← List.singleton_append, ← List.singleton_append (x := ' '), squeeze_append,
        squeeze_append]
      simp [hne]))
    rcases h.source with rfl | ⟨-, hnil⟩
    · rw [← List.singleton_append, ← List.append_assoc]
      exact hsuffix.append_left
    · exact absurd hnil hne

/-- What stands behind the arguments ends in no blank, and in a colon only if it was read so. -/
theorem FlagsOf.last {behind flags sufs : List Char} (h : FlagsOf i i' behind flags sufs)
    (hcolon : ∀ f ∈ i'.flags, f.toList.getLast? ≠ some ':') :
    Solid (')' :: ((Text.words flags).flatMap (' ' :: ·) ++ i'.suffixText.toList)) ∧
      (EndsInColon (')' :: ((Text.words flags).flatMap (' ' :: ·) ++ i'.suffixText.toList)) →
        EndsInColon behind) := by
  by_cases hnil : i'.suffixes = []
  · have hcolon' : ∀ w ∈ Text.words flags, w.getLast? ≠ some ':' := by
      rw [h.flags_eq] at hcolon
      intro w hw
      have hnot := hcolon _ (List.mem_map_of_mem hw)
      rwa [String.toList_ofList] at hnot
    obtain ⟨hsolid, hlast⟩ := solid_paren_words
      (fun w hw => ⟨(of_mem_words hw).1, (of_mem_words hw).2.1⟩) hcolon'
    rw [suffixText_of_nil hnil, List.append_nil]
    refine ⟨hsolid, fun hend => ?_⟩
    rw [hsolid.endsInColon_iff] at hend
    exact absurd hend hlast
  · exact h.last_suffixes hnil

theorem callee_type_ne_nil {front rest' arguments : List Char}
    (htake : TypeToken.take rest = .ok (t, rest'))
    (hfront : splitAtTop? '(' {} rest' = some (front, arguments))
    (hhead : (trim front).head? = some '@' ∨ (trim front).head? = some '%') : t ≠ [] := by
  rintro rfl
  have hcomma := TypeToken.head?_of_take_nil htake
  rw [append_of_splitAtTop? hfront] at hcomma
  cases front with
  | nil => cases hcomma
  | cons c front =>
      obtain rfl := Option.some.inj hcomma
      have htrim : (trim (',' :: front)).head? = some ',' := by
        obtain ⟨b, -, hb⟩ := exists_trimEnd (',' :: front)
        have hstart : trim (',' :: front) = trimEnd (',' :: front) := rfl
        rw [hstart]
        cases he : trimEnd (',' :: front) with
        | nil =>
            rw [he] at hb
            have hsolid : squeeze (',' :: front) ≠ [] := by
              rw [squeeze_cons_of_not_blank rfl]
              exact List.cons_ne_nil _ _
            have hsqueeze := squeeze_trim (',' :: front)
            rw [hstart, he] at hsqueeze
            exact absurd hsqueeze.symm hsolid
        | cons d s =>
            rw [he] at hb
            exact congrArg some (List.cons.inj hb).1.symm
      rw [htrim] at hhead
      rcases hhead with hhead | hhead <;> cases hhead

/-- A callee is no metadata, so it has the type of the call unless it is a label. -/
theorem type_of_callee {type : String} (h : Value.parse scope s type = .ok v)
    (hhead : s.head? = some '@' ∨ s.head? = some '%') (hs : trim s = s) :
    v.type = type ∨ v.type = TypeToken.label := by
  obtain ⟨htext, -, hregular, -⟩ := text_of_callee h hhead hs
  have hreread := Value.reread_of_parse h hregular
  cases hm : v.isMetadata with
  | false => exact (Value.type_of_parse hm hreread.type_eq).imp id And.right
  | true =>
      have hbang := hreread.metadata.2 hm
      rw [htext] at hbang
      rw [hbang] at hhead
      rcases hhead with hhead | hhead <;> cases hhead

/-! ## The whole call -/

variable {front x list tail behind name : List Char} {c : Char}

/-- The pieces of a call as they are written: its type, its callee, its arguments and what stands
behind them. -/
def callPieces (t name list tail : List Char) : List Char :=
  t ++ ' ' :: (name ++ '(' :: (list ++ ')' :: tail))

theorem FlagsOf.callTail_eq {flags sufs : List Char} {args : List Value}
    (h : FlagsOf i i' behind flags sufs) (hv : v.text.toList = name) :
    i'.callTail (String.ofList t) args v = callPieces t name (Value.listText args)
      ((words flags).flatMap (' ' :: ·) ++ i'.suffixText.toList) := by
  rw [callTail, callPieces, h.flatMap_flags, String.toList_ofList, hv]

/-- A call may be written where it was read if each of its pieces may. -/
theorem rewrites_callPieces (ht : t ≠ [])
    (htake : TypeToken.take rest = .ok (t, front ++ '(' :: (x ++ c :: behind)))
    (hname : Solid (trim front)) (hc : isClosing c = true) (hlist : Keeps x list)
    (htail : Solid (')' :: tail)) (hbehind : Keeps behind tail)
    (hcolon : EndsInColon (')' :: tail) → EndsInColon (trim behind)) :
    Rewrites rest (callPieces t (trim front) list tail) := by
  have hsplit : trim front ++ '(' :: (list ++ ')' :: tail) =
      (trim front ++ '(' :: list) ++ ')' :: tail := by simp
  refine ⟨(TypeToken.isToken_of_take htake ht).solid.append_space ?_,
    TypeToken.keeps_of_take htake ?_, fun hend => endsInColon_of_take htake ?_⟩
  · rw [hsplit]
    refine .append ?_ htail.last
    rw [List.head?_append_of_ne_nil _ hname.ne_nil]
    exact hname.head
  · have hquote : '"' ∉ [c] := by
      rw [List.mem_singleton]
      rintro rfl
      cases hc
    have hclose : Keeps (c :: behind) (')' :: tail) :=
      (Keeps.of_plain (b := [')']) hquote (by decide)).append hbehind
    exact (Keeps.trim front).append (.cons '(' (hlist.append hclose))
  · rw [callPieces, hsplit, ← List.cons_append, ← List.append_assoc] at hend
    have hend' := hcolon (hend.of_append htail.squeeze_ne_nil)
    rw [endsInColon_trim] at hend'
    have hassoc : front ++ '(' :: (x ++ c :: behind) = (front ++ '(' :: (x ++ [c])) ++ behind := by
      simp
    rw [hassoc]
    exact hend'.append_left

/-- A call is read from its pieces if each of them is. -/
theorem parseCall_callPieces {args : List Value} {callee : Value} {flags sufs : List Char}
    (ht : TypeToken.IsToken t) (hname : Value.IsWord name)
    (hhead : name.head? = some '@' ∨ name.head? = some '%')
    (hcallee : Value.parse scope name (String.ofList t) = .ok callee)
    (hlist : Balanced list) (hargs : Value.parseTypedList scope list = .ok args)
    (hflags : (splitAtTop? ',' {} (trim tail)).getD (trim tail, []) = (flags, sufs))
    (hparts : splitOperands sufs = .ok parts)
    (hsuffixes : takeSuffixes { i with
      type := some (String.ofList t)
      operands := args ++ [callee]
      flags := (words flags).map String.ofList } parts = .ok (i', [])) :
    parseCall scope i (callPieces t name list tail) = .ok i' := by
  have hsolid : Solid name := .of_unbroken hname.unbroken hname.ne_nil
  have htrim : trim name = name := hsolid.trim_eq
  have htake : TypeToken.take (callPieces t name list tail) =
      .ok (t, name ++ '(' :: (list ++ ')' :: tail)) := by
    apply ht.take_space
    · rw [List.head?_append_of_ne_nil _ hsolid.ne_nil]
      exact hsolid.head_all
    · rw [List.head?_append_of_ne_nil _ hsolid.ne_nil]
      rcases hhead with hhead | hhead <;>
      · rw [hhead]
        decide
  have hparen : splitAtTop? '(' {} (name ++ '(' :: (list ++ ')' :: tail)) =
      some (name, list ++ ')' :: tail) := by
    refine splitAtTop?_eq_some_iff.2 ⟨rfl, ?_, ?_⟩
    · exact splitAtTop?_eq_none_of_not_mem (hname.not_mem rfl (by decide) (by decide))
    · rw [hname.piece.balanced.run_eq]
      rfl
  have hinside : ('(' :: list ++ [')']).tail.dropLast = list := by
    rw [List.cons_append, List.tail_cons, List.dropLast_concat]
  refine parseCall_eq_ok_iff.2 ⟨t, _, name, _, _, tail, args, callee, flags, sufs, parts, htake,
    hparen, ?_, takeBracketed?_parens hlist, ?_, ?_, hflags, hparts, hsuffixes⟩
  · rwa [htrim]
  · rwa [hinside]
  · rwa [htrim]

theorem parseCall_reread (h : parseCall scope i rest = .ok i')
    (hv : ∀ v ∈ i'.operands.dropLast, v.isRegular = true)
    (hflags : ∀ f ∈ i'.flags, f.toList.getLast? ≠ some ':') :
    ∃ type args callee, i'.type = some type ∧ i'.operands = args ++ [callee] ∧
      (callee.type = type ∨ callee.type = TypeToken.label) ∧
      Rewrites rest (i'.callTail type args callee) ∧
      parseCall scope i (i'.callTail type args callee) = .ok i' := by
  obtain ⟨t, rest', front, arguments, bracketed, behind, args, callee, flags, sufs, parts, htake,
    hfront, hhead, hbracket, hargs, hcallee, hsplit, hparts, hsuffixes⟩ := parseCall_eq_ok_iff.1 h
  have ht := callee_type_ne_nil htake hfront hhead
  have htakes := takesSuffixes_of_eq_ok hsuffixes
  have hflagsOf := flagsOf_of_split hsplit hparts htakes rfl
  obtain ⟨htext, hword, hregular, hlabel⟩ := text_of_callee hcallee hhead (trim_trim front)
  obtain ⟨x, c, rfl, hc, rfl⟩ := takeBracketed?_cons_eq_some rfl hbracket
  rw [append_of_splitAtTop? hfront] at htake
  have hoperands : i'.operands = args ++ [callee] := by rw [htakes.eq]
  rw [hoperands, List.dropLast_concat] at hv
  rw [List.cons_append, List.tail_cons, List.dropLast_concat] at hargs
  have hlist := Value.rereadList_of_parseTypedList hargs hv
  refine ⟨String.ofList t, args, callee, by rw [htakes.eq], hoperands,
    type_of_callee hcallee hhead (trim_trim front), ?_, ?_⟩
  · obtain ⟨hsolid, hcolon⟩ := hflagsOf.last hflags
    rw [hflagsOf.callTail_eq htext]
    exact rewrites_callPieces ht htake (.of_unbroken hword.unbroken hword.ne_nil) hc hlist.keeps
      hsolid ((Keeps.trim behind).trans hflagsOf.keeps_flags) hcolon
  · obtain ⟨flags', sufs', hflags', hwords, hsufs⟩ := hflagsOf.split_again
    have hcallee' : Value.parse scope (trim front) (String.ofList t) = .ok callee := by
      rw [← htext]
      exact (Value.reread_of_parse hcallee hregular).parse _ (fun _ => rfl) hlabel
    have htake' := hflagsOf.take
    rw [← hwords] at htake'
    rw [hflagsOf.callTail_eq htext]
    exact parseCall_callPieces (TypeToken.isToken_of_take htake ht) hword hhead hcallee'
      hlist.balanced hlist.parse hflags' hsufs htake'

end SsaIr.Instruction
