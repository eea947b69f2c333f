import SsaIr.Proofs.Function.Parameters
import SsaIr.Proofs.Regularity

/-!
# Headers are read back

The words behind the parameters are written with the flags in front. The rest of a header is
written as it was read, with the blanks between its parts made one.
-/

namespace SsaIr

open Text

namespace Function

variable {f : Function} {s : List Char} {ws : List (List Char)}

/-! ## The words behind the parameters -/

/-- The words that are kept as flags. -/
def isFlag (word : List Char) : Bool := word = "nounwind".toList || word = "readonly".toList

/-- The words behind the parameters, flags first. -/
def modifierWords (f : Function) : List (List Char) :=
  (if f.doesNotThrow then ["nounwind".toList] else []) ++
    (if f.readonly then ["readonly".toList] else []) ++ f.modifiers.map String.toList

theorem foldl_addModifier (ws : List (List Char)) : ws.foldl addModifier f =
    { f with
      doesNotThrow := f.doesNotThrow || decide ("nounwind".toList ∈ ws)
      readonly := f.readonly || decide ("readonly".toList ∈ ws)
      modifiers := f.modifiers ++ (ws.filter (!isFlag ·)).map String.ofList } := by
  have hne : "nounwind".toList ≠ "readonly".toList := by decide
  unfold addModifier isFlag
  generalize "nounwind".toList = a at hne ⊢
  generalize "readonly".toList = b at hne ⊢
  induction ws generalizing f with
  | nil => simp
  | cons w ws ih =>
      rw [List.foldl_cons, ih]
      by_cases ha : w = a
      · simp [ha, hne.symm]
      · by_cases hb : w = b
        · simp [hb, hne, hne.symm]
        · simp [ha, hb, Ne.symm ha, Ne.symm hb]

/-- Of a function without words behind its parameters, one with the given words has them written
with the flags in front. -/
theorem modifierWords_foldl (hthrow : f.doesNotThrow = false) (hread : f.readonly = false)
    (hmod : f.modifiers = []) : (ws.foldl addModifier f).modifierWords =
      (if "nounwind".toList ∈ ws then ["nounwind".toList] else []) ++
        (if "readonly".toList ∈ ws then ["readonly".toList] else []) ++ ws.filter (!isFlag ·) := by
  rw [foldl_addModifier, modifierWords, hthrow, hread, hmod, List.nil_append, List.map_map]
  simp only [Bool.false_or, decide_eq_true_eq]
  congr 1
  exact (List.map_congr_left fun w _ => String.toList_ofList).trans (List.map_id' _)

theorem foldl_modifierWords (hthrow : f.doesNotThrow = false) (hread : f.readonly = false)
    (hmod : f.modifiers = []) :
    (ws.foldl addModifier f).modifierWords.foldl addModifier f = ws.foldl addModifier f := by
  rw [modifierWords_foldl hthrow hread hmod, foldl_addModifier, foldl_addModifier]
  have hne : "nounwind".toList ≠ "readonly".toList := by decide
  unfold isFlag
  generalize "nounwind".toList = a at hne ⊢
  generalize "readonly".toList = b at hne ⊢
  by_cases ha : a ∈ ws <;> by_cases hb : b ∈ ws <;> simp [ha, hb, hne, hne.symm]

theorem mem_modifierWords {w : List Char} (hthrow : f.doesNotThrow = false)
    (hread : f.readonly = false) (hmod : f.modifiers = [])
    (hw : w ∈ (ws.foldl addModifier f).modifierWords) : w ∈ ws := by
  rw [modifierWords_foldl hthrow hread hmod] at hw
  rcases List.mem_append.1 hw with hw | hw
  · rcases List.mem_append.1 hw with hw | hw
    · split at hw
      · next hmem => rwa [List.mem_singleton.1 hw]
      · cases hw
    · split at hw
      · next hmem => rwa [List.mem_singleton.1 hw]
      · cases hw
  · exact (List.mem_filter.1 hw).1

/-- The words may be written with the flags in front. -/
theorem keeps_modifierWords (hthrow : f.doesNotThrow = false) (hread : f.readonly = false)
    (hmod : f.modifiers = []) :
    Keeps s (((words s).foldl addModifier f).modifierWords.flatMap (' ' :: ·)) := by
  rw [modifierWords_foldl hthrow hread hmod, List.flatMap_append, ← List.nil_append s]
  apply Keeps.append
  · refine .of_plain List.not_mem_nil ?_
    split <;> split <;> decide
  · refine (Keeps.words s).trans (.filter_words fun w _ hw => ?_)
    simp only [Bool.not_eq_false', isFlag, Bool.or_eq_true, decide_eq_true_eq] at hw
    rcases hw with rfl | rfl <;> decide

/-! ## Headers -/

/-- A header behind its keyword as it is written, with the brace that opens a body. -/
def headerText (f : Function) : List Char :=
  f.returnType.toList ++ [' '] ++ '@' :: (f.name.toList ++ '(' ::
    ([',', ' '].intercalate f.parameterTexts ++ ')' ::
      (f.modifierWords.flatMap (' ' :: ·) ++ if f.isDeclaration then [] else [' ', '\x7b'])))

theorem toList_header (f : Function) :
    f.header.toList ++ (if f.isDeclaration then [] else [' ', '\x7b']) =
      (if f.isDeclaration then "declare ".toList else "define ".toList) ++ f.headerText := by
  have hparams : (f.parameters.map Parameter.text ++ if f.isVariadic then ["..."] else []).map
      String.toList = f.parameterTexts := by
    rw [parameterTexts, List.map_append, List.map_map]
    cases f.isVariadic <;> rfl
  have hmods : (String.join (f.modifiers.map (" " ++ ·))).toList =
      (f.modifiers.map String.toList).flatMap (' ' :: ·) := by
    rw [String.toList_join, List.flatMap_map, List.flatMap_map]
    simp
  have hwords : (if f.doesNotThrow then " nounwind" else "").toList ++
      (if f.readonly then " readonly" else "").toList ++
        (String.join (f.modifiers.map (" " ++ ·))).toList =
      f.modifierWords.flatMap (' ' :: ·) := by
    rw [hmods, modifierWords, List.flatMap_append, List.flatMap_append]
    cases f.doesNotThrow <;> cases f.readonly <;> rfl
  rw [header, headerText, ← hwords, ← hparams]
  simp only [String.toList_append, String.toList_intercalate]
  cases f.isDeclaration <;> simp

/-- The words behind the parameters, in front of the brace that opens a body if there is one. -/
def modifiers? (d : Bool) (behind : List Char) : Option (List Char) :=
  match d, before? ['\x7b'] behind with
  | true, none => some behind
  | false, some mods => some mods
  | _, _ => none

theorem modifiers?_eq_some_iff {d : Bool} {behind mods : List Char} :
    modifiers? d behind = some mods ↔
      d = true ∧ before? ['\x7b'] behind = none ∧ behind = mods ∨
        d = false ∧ before? ['\x7b'] behind = some mods := by
  unfold modifiers?
  cases d <;> cases before? ['\x7b'] behind <;> simp

theorem parseHeader_eq_ok_iff {d : Bool} : parseHeader d s = .ok f ↔
    ∃ front after name parameters bracketed behind parts g mods,
      splitAtTop? '@' {} s = some (front, after) ∧ trim front ≠ [] ∧
      splitAt? '(' after = some (name, parameters) ∧ isIdentifier (trim name) = true ∧
      takeBracketed? {} ('(' :: parameters) = some (bracketed, behind) ∧
      splitOperands bracketed.tail.dropLast = .ok parts ∧
      (∀ malformed, parts.foldlM (addParameter malformed)
        { name := String.ofList (trim name), returnType := String.ofList (trim front),
          isDeclaration := d } = .ok g) ∧
      modifiers? d (trim behind) = some mods ∧ f = (words mods).foldl addModifier g := by
  constructor
  · intro h
    unfold parseHeader at h
    dsimp only at h
    split at h
    · cases h
    · next front after hfront =>
        split at h
        · cases h
        · next hreturn =>
          split at h
          · cases h
          · next name parameters hname =>
              split at h
              · cases h
              · next hident =>
                  split at h
                  · cases h
                  · next bracketed behind hbracket =>
                      obtain ⟨parts, hparts, h⟩ := bind_eq_ok_iff.1 h
                      obtain ⟨g, hg, h⟩ := bind_eq_ok_iff.1 h
                      have hany : ∀ malformed, parts.foldlM (addParameter malformed) _ = .ok g :=
                        fun malformed => (foldlM_addParameter_eq_ok_iff rfl rfl).2
                          ((foldlM_addParameter_eq_ok_iff rfl rfl).1 hg)
                      obtain ⟨mods, hmods, rfl⟩ : ∃ mods, modifiers? d (trim behind) = some mods ∧
                          f = (words mods).foldl addModifier g := by
                        simp only [modifiers?_eq_some_iff]
                        cases hbrace : before? ['\x7b'] (trim behind) with
                        | none =>
                            rw [hbrace] at h
                            cases d with
                            | true => exact ⟨_, .inl ⟨rfl, rfl, rfl⟩, (Except.ok.inj h).symm⟩
                            | false => cases h
                        | some mods =>
                            rw [hbrace] at h
                            cases d with
                            | true => cases h
                            | false => exact ⟨mods, .inr ⟨rfl, rfl⟩, (Except.ok.inj h).symm⟩
                      exact ⟨front, after, name, parameters, bracketed, behind, parts, g, mods,
                        hfront, by simpa using hreturn, hname, by simpa using hident, hbracket,
                        hparts, hany, hmods, rfl⟩
  · rintro ⟨front, after, name, parameters, bracketed, behind, parts, g, mods, hfront, hreturn,
      hname, hident, hbracket, hparts, hg, hmods, rfl⟩
    unfold parseHeader
    dsimp only
    rw [hfront]
    dsimp only
    rw [if_neg (by simpa using hreturn), hname]
    dsimp only
    rw [hident, if_neg (by decide), hbracket]
    refine bind_eq_ok_iff.2 ⟨parts, hparts, bind_eq_ok_iff.2 ⟨g, hg _, ?_⟩⟩
    rcases modifiers?_eq_some_iff.1 hmods with ⟨rfl, hbrace, rfl⟩ | ⟨rfl, hbrace⟩
    · rw [hbrace]
      rfl
    · rw [hbrace]
      rfl

theorem trim_append_brace (s : List Char) :
    trim (s ++ ['\x7b']) = trimStart s ++ ['\x7b'] := by
  obtain ⟨a, ha, hs⟩ := exists_trimStart s
  have hstart : trimStart (s ++ ['\x7b']) = trimStart s ++ ['\x7b'] := by
    conv_lhs => rw [hs, List.append_assoc, trimStart_append_of_blanks ha]
    apply trimStart_of_head
    have hhead := head?_trimStart s
    cases ht : trimStart s with
    | nil => rfl
    | cons c t =>
        rw [ht] at hhead
        exact hhead
  rw [trim, hstart, trimEnd_of_last]
  rw [List.getLast?_concat]
  rfl

/-- The words behind the parameters as they are written. -/
def behindText (d : Bool) (ws : List (List Char)) : List Char :=
  ws.flatMap (' ' :: ·) ++ if d then [] else [' ', '\x7b']

/-- Words are found again in front of the brace, or where a body must not open. -/
theorem modifiers_reread {d : Bool} (hws : ∀ w ∈ ws, Unbroken w ∧ w ≠ [])
    (hbrace : d = true → ∀ w ∈ ws.getLast?, w.getLast? ≠ some '\x7b') :
    ∃ mods, modifiers? d (trim (behindText d ws)) = some mods ∧ words mods = ws := by
  unfold behindText
  cases d with
  | false =>
      refine ⟨trimStart (ws.flatMap (' ' :: ·) ++ [' ']), modifiers?_eq_some_iff.2 (.inr ⟨rfl, ?_⟩), ?_⟩
      · have hsplit : ws.flatMap (' ' :: ·) ++ [' ', '\x7b'] =
            ws.flatMap (' ' :: ·) ++ [' '] ++ ['\x7b'] := by simp
        rw [if_neg Bool.false_ne_true, hsplit, trim_append_brace]
        exact before?_eq_some_iff.2 rfl
      · rw [words_trimStart, words_append_blanks blanks_space, words_flatMap hws]
  | true =>
      rw [if_pos rfl, List.append_nil]
      refine ⟨_, modifiers?_eq_some_iff.2 (.inl ⟨rfl, ?_, rfl⟩), ?_⟩
      · cases hb : before? ['\x7b'] (trim (ws.flatMap (' ' :: ·))) with
        | none => rfl
        | some r =>
            have hsqueeze := congrArg squeeze (before?_eq_some_iff.1 hb)
            rw [squeeze_trim, squeeze_eq_flatten_words, words_flatMap hws, squeeze_append] at hsqueeze
            rcases List.eq_nil_or_concat ws with rfl | ⟨init, w, rfl⟩
            · exact absurd hsqueeze.symm (List.append_ne_nil_of_right_ne_nil _ (by decide))
            · rw [List.concat_eq_append, List.flatten_append, List.flatten_singleton] at hsqueeze
              rw [List.concat_eq_append] at hbrace hws
              have hne : w ≠ [] := (hws w (by simp)).2
              have hlast := congrArg List.getLast? hsqueeze
              rw [List.getLast?_append_of_ne_nil _ hne] at hlast
              refine absurd (hlast.trans ?_) (hbrace rfl w List.getLast?_concat)
              exact List.getLast?_concat
      · rw [words_trim, words_flatMap hws]

theorem keeps_behind {d : Bool} {behind mods : List Char} {g : Function}
    (hmods : modifiers? d (trim behind) = some mods) (hthrow : g.doesNotThrow = false)
    (hread : g.readonly = false) (hmod : g.modifiers = []) :
    Keeps behind (behindText d ((words mods).foldl addModifier g).modifierWords) := by
  refine (Keeps.trim behind).trans ?_
  unfold behindText
  rcases modifiers?_eq_some_iff.1 hmods with ⟨rfl, -, rfl⟩ | ⟨rfl, hbrace⟩
  · rw [if_pos rfl, List.append_nil]
    exact keeps_modifierWords hthrow hread hmod
  · rw [before?_eq_some_iff.1 hbrace, if_neg Bool.false_ne_true]
    exact (keeps_modifierWords hthrow hread hmod).append
      (.of_plain (a := ['\x7b']) (by decide) (by decide))

/-- A last word that opens no body is still the last word behind the flags. -/
theorem getLast?_modifierWords (h : f.modifiers.getLast?.all (!endsWith '\x7b' ·) = true) :
    ∀ w ∈ f.modifierWords.getLast?, w.getLast? ≠ some '\x7b' := by
  intro w hw
  rcases List.eq_nil_or_concat f.modifiers with hnil | ⟨init, last, hconcat⟩
  · have hmem := List.mem_of_getLast? (Option.mem_def.1 hw)
    rw [modifierWords, hnil, List.map_nil, List.append_nil] at hmem
    have hflag : w = "nounwind".toList ∨ w = "readonly".toList := by
      rcases List.mem_append.1 hmem with hmem | hmem
      · split at hmem
        · exact .inl (List.mem_singleton.1 hmem)
        · cases hmem
      · split at hmem
        · exact .inr (List.mem_singleton.1 hmem)
        · cases hmem
    rcases hflag with rfl | rfl <;> decide
  · rw [List.concat_eq_append] at hconcat
    rw [modifierWords, hconcat, List.map_append, ← List.append_assoc] at hw
    obtain rfl := Option.some.inj (List.getLast?_concat.symm.trans (Option.mem_def.1 hw))
    rw [hconcat, List.getLast?_concat, Option.all_some] at h
    simpa [endsWith] using h

/-! ## The whole header -/

variable {d : Bool} {front name list tail x behind mods : List Char} {c : Char}
  {parts : List (List Char)} {g : Function}

/-- The pieces of a header as they are written: its return type, its name, its parameters and what
stands behind them. -/
def headerPieces (type name list tail : List Char) : List Char :=
  type ++ [' '] ++ '@' :: (name ++ '(' :: (list ++ ')' :: tail))

theorem headerText_foldl {type : List Char} (hname : g.name = String.ofList name)
    (htype : g.returnType = String.ofList type) (hd : g.isDeclaration = d) :
    (ws.foldl addModifier g).headerText =
      headerPieces type name ([',', ' '].intercalate g.parameterTexts)
        (behindText d (ws.foldl addModifier g).modifierWords) := by
  have hreturn : (ws.foldl addModifier g).returnType = String.ofList type := by
    rw [foldl_addModifier, ← htype]
  have hname' : (ws.foldl addModifier g).name = String.ofList name := by
    rw [foldl_addModifier, ← hname]
  have hd' : (ws.foldl addModifier g).isDeclaration = d := by rw [foldl_addModifier, ← hd]
  have hparams : (ws.foldl addModifier g).parameterTexts = g.parameterTexts := by
    rw [foldl_addModifier]
    rfl
  rw [headerText, hreturn, hname', hd', hparams, String.toList_ofList, String.toList_ofList]
  rfl

theorem solid_headerPieces (hfront : Solid front) (hws : ∀ w ∈ ws, Unbroken w ∧ w ≠ []) :
    Solid (headerPieces front name list (behindText d ws)) := by
  have hparens : Solid (front ++ ([' '] ++ '@' :: (name ++ '(' :: (list ++ [')'])))) :=
    .append hfront.head (by
      rw [← List.cons_append, ← List.append_assoc, ← List.cons_append, ← List.append_assoc,
        List.getLast?_concat]
      rfl)
  have hsolid := hparens.append_words hws
  have hsplit : headerPieces front name list (behindText d ws) =
      front ++ ([' '] ++ '@' :: (name ++ '(' :: (list ++ [')']))) ++ ws.flatMap (' ' :: ·) ++
        if d then [] else [' ', '\x7b'] := by
    rw [headerPieces, behindText]
    simp
  rw [hsplit]
  cases d with
  | true => rwa [if_pos rfl, List.append_nil]
  | false => exact .append hsolid.head rfl

theorem keeps_headerPieces (hc : isClosing c = true) (hlist : Keeps x list)
    (hbehind : Keeps behind tail) :
    Keeps (front ++ '@' :: (name ++ '(' :: (x ++ c :: behind)))
      (headerPieces (trim front) (trim name) list tail) := by
  have hquote : '"' ∉ [c] := by
    rw [List.mem_singleton]
    rintro rfl
    cases hc
  have hclose : Keeps (c :: behind) (')' :: tail) :=
    (Keeps.of_plain (b := [')']) hquote (by decide)).append hbehind
  have hfront : Keeps front (trim front ++ [' ']) := by
    have hspace := (Keeps.refl (trim front)).append Keeps.space
    rw [List.append_nil] at hspace
    exact (Keeps.trim front).trans hspace
  exact hfront.append (.cons '@' ((Keeps.trim name).append (.cons '(' (hlist.append hclose))))

/-- A header is read from its pieces if each of them is. -/
theorem parseHeader_headerPieces (hmisses : splitAtTop? '@' {} front = none)
    (htop : (Nesting.run {} front).isTop = true) (hreturn : trim front ≠ [])
    (hident : isIdentifier name = true) (hlist : Balanced list)
    (hparts : splitOperands list = .ok parts)
    (hg : ∀ malformed, parts.foldlM (addParameter malformed)
      { name := String.ofList name, returnType := String.ofList (trim front),
        isDeclaration := d } = .ok g)
    (hmods : modifiers? d (trim tail) = some mods) :
    parseHeader d (headerPieces (trim front) name list tail) =
      .ok ((words mods).foldl addModifier g) := by
  have hsqueeze : squeeze (trim front ++ [' ']) = squeeze front := by
    rw [squeeze_append, squeeze_trim, blanks_space.squeeze_eq, List.append_nil]
  have hfront : splitAtTop? '@' {} (headerPieces (trim front) name list tail) =
      some (trim front ++ [' '], name ++ '(' :: (list ++ ')' :: tail)) := by
    rw [headerPieces, splitAtTop?_eq_some_iff, ← splitAtTop?_squeeze_eq_none_iff rfl,
      ← Nesting.run_squeeze, hsqueeze, splitAtTop?_squeeze_eq_none_iff rfl, Nesting.run_squeeze]
    exact ⟨rfl, hmisses, htop⟩
  have htrim : trim (trim front ++ [' ']) = trim front := by
    rw [trim_append_blanks blanks_space, trim_trim]
  have hname : splitAt? '(' (name ++ '(' :: (list ++ ')' :: tail)) =
      some (name, list ++ ')' :: tail) :=
    splitAt?_eq_some_iff.2 ⟨rfl, not_mem_of_isIdentifier hident rfl⟩
  have hsolid : Solid name :=
    .of_unbroken (unbroken_of_isIdentifier hident) (ne_nil_of_isIdentifier hident)
  refine parseHeader_eq_ok_iff.2 ⟨_, _, name, _, _, tail, parts, g, mods, hfront, ?_, hname, ?_,
    takeBracketed?_parens hlist, ?_, ?_, hmods, rfl⟩
  · rwa [htrim]
  · rwa [hsolid.trim_eq]
  · rwa [List.cons_append, List.tail_cons, List.dropLast_concat]
  · rwa [htrim, hsolid.trim_eq]

/-- A header is written so that it can stand where it was read, and is read again from what is
written if the last word of a declaration does not look like the start of a body. -/
theorem header_reread (h : parseHeader d s = .ok f) :
    Solid f.headerText ∧ Keeps s f.headerText ∧
      ((d = true → f.modifiers.getLast?.all (!endsWith '\x7b' ·) = true) →
        parseHeader d f.headerText = .ok f) := by
  obtain ⟨front, after, name, parameters, bracketed, behind, parts, g, mods, hfront, hreturn,
    hname, hident, hbracket, hparts, hg, hmods, rfl⟩ := parseHeader_eq_ok_iff.1 h
  obtain ⟨rfl, hmisses, htop⟩ := splitAtTop?_eq_some_iff.1 hfront
  obtain ⟨rfl, -⟩ := splitAt?_eq_some_iff.1 hname
  obtain ⟨inside, c, rfl, hc, rfl⟩ := takeBracketed?_cons_eq_some rfl hbracket
  rw [List.cons_append, List.tail_cons, List.dropLast_concat] at hparts
  obtain ⟨hbalanced, hkeeps, hsplit, hagain⟩ := parameters_reread
    (splitOperands_eq_ok_iff.1 hparts) (hg fun reason => .malformedHeader reason) rfl rfl
  obtain ⟨_, _, ps, -, -, -, hgeq⟩ :=
    (foldlM_addParameter_eq_ok_iff rfl rfl).1 (hg fun reason => .malformedHeader reason)
  have hthrow : g.doesNotThrow = false := by rw [hgeq]
  have hread : g.readonly = false := by rw [hgeq]
  have hmod : g.modifiers = [] := by rw [hgeq]
  have htext : ((words mods).foldl addModifier g).headerText =
      headerPieces (trim front) (trim name) ([',', ' '].intercalate g.parameterTexts)
        (behindText d ((words mods).foldl addModifier g).modifierWords) :=
    headerText_foldl (by rw [hgeq]) (by rw [hgeq]) (by rw [hgeq])
  have hwords : ∀ w ∈ ((words mods).foldl addModifier g).modifierWords, Unbroken w ∧ w ≠ [] := by
    intro w hw
    obtain ⟨hunbroken, hne, -⟩ := of_mem_words (mem_modifierWords hthrow hread hmod hw)
    exact ⟨hunbroken, hne⟩
  rw [htext]
  refine ⟨solid_headerPieces (solid_trim hreturn) hwords,
    keeps_headerPieces hc hkeeps (keeps_behind hmods hthrow hread hmod), fun hbrace => ?_⟩
  obtain ⟨mods', hmods', hwordsMods⟩ := modifiers_reread (d := d) hwords fun hd =>
    getLast?_modifierWords (hbrace hd)
  rw [parseHeader_headerPieces hmisses htop hreturn hident hbalanced hsplit hagain hmods',
    hwordsMods, foldl_modifierWords hthrow hread hmod]

end Function

end SsaIr
