import SsaIr.Global.Parser
import SsaIr.Proofs.Value.RoundTrip

/-!
# Global variables are read back

The words in front of the kind are written in a fixed order, and of several alignments the last
one is written.
-/

namespace SsaIr

open Text

variable {s t rest front body : List Char} {ps : List (List Char)}

theorem Linkage.keyword_of_ofKeyword? {word : String} {linkage : Linkage}
    (h : ofKeyword? word = some linkage) : linkage.keyword = word := by
  simpa using List.find?_some h

namespace Value

variable {scope : List String} {v : Value} {tag : String}

theorem head?_of_parseTyped (h : parseTyped scope s = .ok (.metadata tag))
    (htag : (metadata tag).isRegular = true) : tag.toList.head? = some '!' := by
  unfold parseTyped at h
  split at h
  · cases h
  · next hform =>
      obtain rfl := metadata.inj (Except.ok.inj h)
      obtain ⟨hhead, htrim⟩ := typedForm_eq_metadata hform
      rwa [htrim, String.toList_ofList]
  · exact (reread_of_parse h htag).metadata.2 rfl

/-- Metadata without blanks may be written behind its type. -/
theorem metadata_reread (hs : Piece s) (h : parseTyped scope s = .ok (.metadata tag))
    (htag : (metadata tag).isRegular = true) (hunbroken : Unbroken tag.toList) :
    Respelled s (TypeToken.metadata.toList ++ ' ' :: tag.toList) ∧
      parseTyped scope (TypeToken.metadata.toList ++ ' ' :: tag.toList) = .ok (.metadata tag) := by
  have hreread := rereadTyped_of_parseTyped hs h htag
  have hsolid : Solid tag.toList := hreread.solid
  have hkeeps : Keeps s tag.toList := hreread.keeps
  have hhead := head?_of_parseTyped h htag
  have hplain : Keeps [] (TypeToken.metadata.toList ++ [' ']) :=
    .of_plain List.not_mem_nil (by decide)
  have hkeeps' := hkeeps.trans (hplain.append (.refl tag.toList))
  have hpiece : Piece (TypeToken.metadata.toList ++ [' '] ++ tag.toList) :=
    Piece.append (by decide) hreread.piece
  rw [List.append_assoc] at hkeeps' hpiece
  refine ⟨⟨TypeToken.isToken_metadata.solid.append_space hsolid, hs, hpiece, hkeeps'⟩, ?_⟩
  have hcompact : isCompact tag.toList = true := by
    rw [isCompact, nextToken_self hunbroken hsolid.ne_nil]
    exact Bool.or_true _
  have hparen : tag.toList.head? ≠ some '(' := by
    rw [hhead]
    decide
  rw [parseTyped, typedForm_typed TypeToken.isToken_metadata (by decide) hsolid hparen hcompact]
  dsimp only
  rw [parse_of_form (form_metadata hsolid hhead), String.ofList_toList]

/-- A value is read again behind its type, as it stands in a variable. -/
theorem initializer_reread (hs : Piece s) (h : parseTyped scope s = .ok v)
    (hv : v.isRegular = true) (hblank : v.isMetadata = true → Unbroken v.text.toList) :
    Respelled s (v.type.toList ++ ' ' :: v.text.toList) ∧
      parseTyped scope (v.type.toList ++ ' ' :: v.text.toList) = .ok v := by
  cases hmetadata : v.isMetadata with
  | false =>
      have hreread := rereadTyped_of_parseTyped hs h hv
      rw [← typedText_eq hmetadata]
      exact ⟨hreread.toRespelled, hreread.parse⟩
  | true =>
      cases v with
      | metadata tag => exact metadata_reread hs h hv (hblank rfl)
      | _ => cases hmetadata

end Value

namespace Global

variable {g g' : Global}

/-! ## Keywords -/

/-- The words in front of the kind. -/
def keywords (g : Global) : List (List Char) :=
  (if g.isDeclaration then ["external".toList] else []) ++
    (if g.linkage = .external then [] else [g.linkage.keyword.toList]) ++
      if g.unnamedAddr then ["unnamed_addr".toList] else []

/-- The word in front of the type. -/
def kind (g : Global) : List Char := (if g.isConstant then "constant" else "global").toList

/-- The word says what kind of variable follows. -/
def IsKind (word : List Char) : Prop := word = "global".toList ∨ word = "constant".toList

theorem isKind_iff {word : List Char} :
    IsKind word ↔ String.ofList word = "global" ∨ String.ofList word = "constant" := by
  rw [IsKind]
  refine or_congr ?_ ?_ <;>
    exact ⟨fun h => by rw [h, String.ofList_toList], fun h => by rw [← h, String.toList_ofList]⟩

theorem isKind_kind (g : Global) : IsKind g.kind := by
  rw [kind]
  split
  · exact .inr rfl
  · exact .inl rfl

theorem readKeywords_of_kind (h : IsKind (nextToken s).1) : readKeywords g s =
    .ok ({ g with isConstant := String.ofList (nextToken s).1 = "constant" }, (nextToken s).2) := by
  rw [readKeywords]
  exact if_pos (isKind_iff.1 h)

theorem readKeywords_of_keyword (hkind : ¬IsKind (nextToken s).1)
    (hadd : g.addKeyword (String.ofList (nextToken s).1) = .ok g') :
    readKeywords g s = readKeywords g' (nextToken s).2 := by
  rw [readKeywords]
  rw [if_neg (mt isKind_iff.2 hkind)]
  split
  · next h => cases hadd.symm.trans h
  · next h =>
      obtain rfl := Except.ok.inj (hadd.symm.trans h)
      rfl

theorem readKeywords_eq_error (hkind : ¬IsKind (nextToken s).1) {e : ParseError}
    (hadd : g.addKeyword (String.ofList (nextToken s).1) = .error e) :
    readKeywords g s = .error e := by
  rw [readKeywords]
  rw [if_neg (mt isKind_iff.2 hkind)]
  split
  · next h =>
      obtain rfl := Except.error.inj (hadd.symm.trans h)
      rfl
  · next h => cases hadd.symm.trans h

theorem readKeywords_trimStart : readKeywords g (trimStart s) = readKeywords g s := by
  rw [readKeywords, readKeywords, nextToken_trimStart]

theorem readKeywords_space : readKeywords g (' ' :: s) = readKeywords g s := by
  have htoken : nextToken (' ' :: s) = nextToken s := rfl
  rw [readKeywords, readKeywords, htoken]

/-- A keyword is a word of identifier characters, and sets nothing but what keywords say. -/
theorem addKeyword_eq_ok {word : String} (h : g.addKeyword word = .ok g') :
    isIdentifier word.toList = true ∧
      g' = { g with linkage := g'.linkage, unnamedAddr := g'.unnamedAddr,
                    isDeclaration := g'.isDeclaration } := by
  unfold addKeyword at h
  split at h
  · next hword =>
      obtain rfl := Except.ok.inj h
      subst hword
      exact ⟨by decide, rfl⟩
  · split at h
    · next hword =>
        obtain rfl := Except.ok.inj h
        subst hword
        exact ⟨by decide, rfl⟩
    · split at h
      · next linkage hlinkage =>
          obtain rfl := Except.ok.inj h
          obtain rfl := Linkage.keyword_of_ofKeyword? hlinkage
          refine ⟨?_, rfl⟩
          cases linkage <;> first | decide | cases hlinkage
      · cases h

/-- The text of keywords: blanks and words of identifier characters. -/
theorem readKeywords_eq_ok (h : readKeywords g s = .ok (g', rest)) :
    (∃ front, s = front ++ rest ∧ ∀ c ∈ front, isBlank c = true ∨ isIdentifierChar c = true) ∧
      rest.head?.all (!isBlank ·) = true ∧
        g' = { g with linkage := g'.linkage, unnamedAddr := g'.unnamedAddr,
                      isDeclaration := g'.isDeclaration, isConstant := g'.isConstant } := by
  have hfront : ∀ {s : List Char}, isIdentifier (nextToken s).1 = true → ∃ front,
      s = front ++ (nextToken s).2 ∧ ∀ c ∈ front, isBlank c = true ∨ isIdentifierChar c = true := by
    intro s hs
    obtain ⟨a, b, ha, hb, hsplit⟩ := exists_nextToken s
    refine ⟨a ++ (nextToken s).1 ++ b, hsplit, fun c hc => ?_⟩
    rcases List.mem_append.1 hc with hc | hc
    · rcases List.mem_append.1 hc with hc | hc
      · exact .inl (ha c hc)
      · exact .inr (mem_of_isIdentifier hs hc)
    · exact .inl (hb c hc)
  fun_induction readKeywords g s with
  | case1 g s word hword =>
      obtain ⟨rfl, rfl⟩ := Prod.mk.inj (Except.ok.inj h)
      refine ⟨hfront ?_, head?_nextToken s, rfl⟩
      rcases isKind_iff.2 hword with hword | hword <;> rw [hword] <;> decide
  | case2 g s word hword e hadd => cases h
  | case3 g s word hword g₁ hadd ih =>
      obtain ⟨hident, hg₁⟩ := addKeyword_eq_ok hadd
      rw [String.toList_ofList] at hident
      obtain ⟨front, hsplit, hchars⟩ := hfront hident
      obtain ⟨⟨front', hsplit', hchars'⟩, hhead, hg'⟩ := ih h
      refine ⟨⟨front ++ front', ?_, ?_⟩, hhead, ?_⟩
      · rw [List.append_assoc, ← hsplit']
        exact hsplit
      · intro c hc
        rcases List.mem_append.1 hc with hc | hc
        · exact hchars c hc
        · exact hchars' c hc
      · rw [hg', hg₁]

theorem readKeywords_words {ws : List (List Char)} (hws : ∀ w ∈ ws, Unbroken w ∧ w ≠ [] ∧ ¬IsKind w)
    (h : ws.foldlM (fun g w => g.addKeyword (String.ofList w)) g = .ok g') :
    readKeywords g (ws.flatMap (' ' :: ·) ++ ' ' :: s) = readKeywords g' (' ' :: s) := by
  induction ws generalizing g with
  | nil =>
      obtain rfl := Except.ok.inj h
      rfl
  | cons w ws ih =>
      obtain ⟨⟨hunbroken, hne, hkind⟩, hws⟩ := List.forall_mem_cons.1 hws
      rw [List.foldlM_cons] at h
      obtain ⟨g₁, hg₁, hrest⟩ := bind_eq_ok_iff.1 h
      have hbreaks : Breaks (ws.flatMap (' ' :: ·) ++ ' ' :: s) := by
        cases ws <;> rfl
      have htoken := nextToken_append hunbroken hne hbreaks
      rw [List.flatMap_cons, List.cons_append, List.cons_append, List.append_assoc,
        readKeywords_space, readKeywords_of_keyword (by rwa [htoken]) (by rwa [htoken]), htoken,
        readKeywords_trimStart]
      exact ih hws hrest

/-- Keywords and kind, and a text behind them. -/
def keyText (g : Global) (s : List Char) : List Char :=
  g.keywords.flatMap (' ' :: ·) ++ ' ' :: (g.kind ++ ' ' :: s)

theorem isIdentifier_kind (g : Global) : isIdentifier g.kind = true := by
  rw [kind]
  split <;> decide

theorem isIdentifier_of_mem_keywords {w : List Char} (hw : w ∈ g.keywords) :
    isIdentifier w = true ∧ ¬IsKind w := by
  rcases List.mem_append.1 hw with hw | hw
  · rcases List.mem_append.1 hw with hw | hw
    · split at hw
      · obtain rfl := List.mem_singleton.1 hw
        exact ⟨by decide, by unfold IsKind; decide⟩
      · cases hw
    · split at hw
      · cases hw
      · next hlinkage =>
          obtain rfl := List.mem_singleton.1 hw
          unfold IsKind
          cases hl : g.linkage <;> first | exact absurd hl hlinkage | exact ⟨by decide, by decide⟩
  · split at hw
    · obtain rfl := List.mem_singleton.1 hw
      exact ⟨by decide, by unfold IsKind; decide⟩
    · cases hw

theorem addKeyword_linkage (h : g.linkage ≠ .external) :
    g'.addKeyword g.linkage.keyword = .ok { g' with linkage := g.linkage } := by
  cases hl : g.linkage <;> first | exact absurd hl h | rfl

/-- Keywords set again what they were written for. -/
theorem foldlM_keywords (hlinkage : g.linkage = .external) (haddr : g.unnamedAddr = false)
    (hdeclaration : g.isDeclaration = false) :
    g'.keywords.foldlM (fun g w => g.addKeyword (String.ofList w)) g =
      .ok { g with linkage := g'.linkage, unnamedAddr := g'.unnamedAddr,
                   isDeclaration := g'.isDeclaration } := by
  rw [keywords, List.foldlM_append, List.foldlM_append]
  refine bind_eq_ok_iff.2 ⟨{ g with linkage := g'.linkage, isDeclaration := g'.isDeclaration },
    bind_eq_ok_iff.2 ⟨{ g with isDeclaration := g'.isDeclaration }, ?_, ?_⟩, ?_⟩
  · cases g'.isDeclaration with
    | false =>
        change Except.ok g = _
        rw [← hdeclaration]
    | true => rfl
  · by_cases hexternal : g'.linkage = .external
    · rw [if_pos hexternal, hexternal, ← hlinkage]
      rfl
    · rw [if_neg hexternal, List.foldlM_cons, String.ofList_toList, addKeyword_linkage hexternal]
      rfl
  · cases g'.unnamedAddr with
    | false =>
        change Except.ok _ = _
        rw [← haddr]
    | true => rfl

theorem readKeywords_keywords (hs : s.head?.all (!isBlank ·) = true)
    (hlinkage : g.linkage = .external) (haddr : g.unnamedAddr = false)
    (hdeclaration : g.isDeclaration = false) :
    readKeywords g (g'.keyText s) = .ok
      ({ g with linkage := g'.linkage, unnamedAddr := g'.unnamedAddr,
                isDeclaration := g'.isDeclaration, isConstant := g'.isConstant }, s) := by
  have hwords : ∀ w ∈ g'.keywords, Unbroken w ∧ w ≠ [] ∧ ¬IsKind w := by
    intro w hw
    obtain ⟨hident, hkind⟩ := isIdentifier_of_mem_keywords hw
    exact ⟨unbroken_of_isIdentifier hident, ne_nil_of_isIdentifier hident, hkind⟩
  have hident := isIdentifier_kind g'
  have htoken : nextToken (g'.kind ++ ' ' :: s) = (g'.kind, s) :=
    nextToken_space (unbroken_of_isIdentifier hident) (ne_nil_of_isIdentifier hident) hs
  rw [keyText, readKeywords_words hwords (foldlM_keywords hlinkage haddr hdeclaration), readKeywords_space,
    readKeywords_of_kind (by rw [htoken]; exact isKind_kind g'), htoken]
  dsimp only
  rw [kind]
  cases g'.isConstant <;> rfl

/-- Blanks and identifier characters bring in no quotes and no brackets. -/
theorem piece_keys (h : ∀ c ∈ s, isBlank c = true ∨ isIdentifierChar c = true) :
    Piece s ∧ '"' ∉ s := by
  constructor
  · refine piece_of_neutral fun c hc => ?_
    rcases h c hc with hc | hc
    · refine ⟨Nesting.neutral_of_isBlank hc, ?_⟩
      rintro rfl
      cases hc
    · refine ⟨neutral_of_isIdentifierChar hc, ?_⟩
      rintro rfl
      cases hc
  · intro hc
    rcases h _ hc with hc | hc <;> cases hc

theorem of_mem_keyText {c : Char} (hc : c ∈ g.keyText []) :
    c = ' ' ∨ isIdentifierChar c = true := by
  rcases List.mem_append.1 hc with hc | hc
  · obtain ⟨w, hw, hc⟩ := List.mem_flatMap.1 hc
    rcases List.mem_cons.1 hc with hc | hc
    · exact .inl hc
    · exact .inr (mem_of_isIdentifier (isIdentifier_of_mem_keywords hw).1 hc)
  · rcases List.mem_cons.1 hc with hc | hc
    · exact .inl hc
    · rcases List.mem_append.1 hc with hc | hc
      · exact .inr (mem_of_isIdentifier (isIdentifier_kind g) hc)
      · exact .inl (List.mem_singleton.1 hc)

theorem keyText_eq (g : Global) (s : List Char) : g.keyText s = g.keyText [] ++ s := by
  rw [keyText, keyText]
  simp

theorem plain_keyText (g : Global) : Plain (g.keyText []) := by
  intro c hc
  refine ⟨?_, ?_, ?_⟩ <;>
  · rintro rfl
    exact absurd (of_mem_keyText hc) (by decide)

theorem exists_keyText (g : Global) : ∃ c t, g.keyText [] = ' ' :: c :: t ∧ isBlank c = false := by
  rw [keyText]
  cases hw : g.keywords with
  | nil =>
      rw [kind]
      cases g.isConstant <;> exact ⟨_, _, rfl, rfl⟩
  | cons w ws =>
      have hident := (isIdentifier_of_mem_keywords (hw ▸ List.mem_cons_self)).1
      obtain ⟨c, w, rfl⟩ := List.exists_cons_of_ne_nil (ne_nil_of_isIdentifier hident)
      exact ⟨c, _, rfl, isBlank_of_isIdentifierChar (mem_of_isIdentifier hident List.mem_cons_self)⟩

/-! ## Suffixes -/

/-- The suffix behind the value. -/
def suffixTexts (g : Global) : List (List Char) :=
  (g.alignment.map fun n => "align ".toList ++ (toString n.toNat).toList).toList

/-- The suffix, with the comma in front of it. -/
def suffixText (g : Global) : List Char := (g.suffixTexts.map (' ' :: ·)).flatMap (',' :: ·)

theorem addSuffix_align {n : UInt32} :
    g.addSuffix ("align ".toList ++ (toString n.toNat).toList) =
      .ok { g with alignment := some n } := by
  have hident := isIdentifier_of_isNumeric (isNumeric_toString n.toNat)
  have hsolid : Solid (toString n.toNat).toList :=
    .of_unbroken (unbroken_of_isIdentifier hident) (ne_nil_of_isIdentifier hident)
  rw [addSuffix, after?_eq_some_iff.2 rfl]
  dsimp only
  rw [hsolid.trim_eq, uint32?_toString]

theorem addSuffix_eq_ok (h : g.addSuffix s = .ok g') :
    '"' ∉ s ∧ ∃ n, g' = { g with alignment := some n } := by
  unfold addSuffix at h
  split at h
  · cases h
  · next numeral hnumeral =>
      split at h
      · next n hn =>
          refine ⟨?_, n, (Except.ok.inj h).symm⟩
          rw [after?_eq_some_iff.1 hnumeral, List.mem_append, not_or]
          refine ⟨by decide, fun hmem => not_mem_quote_of_uint32? hn ?_⟩
          obtain ⟨a, b, ha, hb, hsplit⟩ := exists_trim numeral
          rw [hsplit, List.mem_append, List.mem_append] at hmem
          exact (hmem.resolve_right hb.not_mem_quote).resolve_left ha.not_mem_quote
      · cases h

theorem foldlM_addSuffix_eq_ok (h : ps.foldlM addSuffix g = .ok g') :
    (∀ s ∈ ps, '"' ∉ s) ∧ g' = { g with alignment := g'.alignment } := by
  induction ps generalizing g with
  | nil =>
      obtain rfl := Except.ok.inj h
      exact ⟨by simp, rfl⟩
  | cons s ps ih =>
      rw [List.foldlM_cons] at h
      obtain ⟨g₁, hg₁, hrest⟩ := bind_eq_ok_iff.1 h
      obtain ⟨hquote, n, rfl⟩ := addSuffix_eq_ok hg₁
      obtain ⟨hps, hg'⟩ := ih hrest
      exact ⟨List.forall_mem_cons.2 ⟨hquote, hps⟩, hg'⟩

theorem foldlM_suffixTexts (hg : g.alignment = none) :
    g'.suffixTexts.foldlM addSuffix g = .ok { g with alignment := g'.alignment } := by
  rw [suffixTexts]
  cases g'.alignment with
  | none =>
      change Except.ok g = _
      rw [← hg]
  | some n =>
      rw [Option.map_some, Option.toList_some, List.foldlM_cons, addSuffix_align]
      rfl

theorem of_mem_suffixTexts (hs : s ∈ g.suffixTexts) : Solid s ∧ Piece s ∧ Plain s := by
  obtain ⟨n, -, rfl⟩ := Option.map_eq_some_iff.1 (Option.mem_toList.1 hs)
  have hident := isIdentifier_of_isNumeric (isNumeric_toString n.toNat)
  have hsolid : Solid (toString n.toNat).toList :=
    .of_unbroken (unbroken_of_isIdentifier hident) (ne_nil_of_isIdentifier hident)
  exact ⟨.append rfl hsolid.last, Piece.append (by decide) (piece_of_isIdentifier hident),
    Plain.append (by decide) (plain_of_isIdentifier hident)⟩

/-! ## Variables -/

/-- The type and the value, if there is one. -/
def valueText (g : Global) : List Char :=
  g.type.toList ++ (g.initializer.map fun v => ' ' :: v.text.toList).getD []

theorem toList_text (g : Global) : g.text.toList =
    '@' :: (g.name.toList ++ ' ' :: '=' :: (g.keyText g.valueText ++ g.suffixText)) := by
  have hkeywords : (if g.isDeclaration then " external" else "").toList ++
      ((if g.linkage = .external then "" else " " ++ g.linkage.keyword).toList ++
        (if g.unnamedAddr then " unnamed_addr" else "").toList) =
      g.keywords.flatMap (' ' :: ·) := by
    rw [keywords, List.flatMap_append, List.flatMap_append, List.append_assoc]
    congr 1
    · split <;> rfl
    · congr 1
      · split
        · rfl
        · rw [String.toList_append, List.flatMap_singleton]
          rfl
      · split <;> rfl
  have hkind : (if g.isConstant then " constant " else " global ").toList =
      ' ' :: (g.kind ++ [' ']) := by
    rw [kind]
    split <;> rfl
  rw [text, keyText, valueText, suffixText, suffixTexts, ← hkeywords]
  cases g.initializer <;> cases g.alignment <;>
    simp only [String.toList_append, hkind, List.append_assoc, List.cons_append, List.nil_append,
      Option.map_some, Option.map_none, Option.toList_some, Option.toList_none, List.map_cons,
      List.map_nil, List.flatMap_cons, List.flatMap_nil, Option.getD_some, Option.getD_none,
      String.toList_empty, List.append_nil] <;>
    rfl

/-- Read the type and the value behind the keywords. -/
def addValue (g : Global) (rest : List Char) : Except ParseError Global := do
  if g.isDeclaration then
    if rest.isEmpty then throw (.malformedGlobal "external global without a type")
    return { g with type := String.ofList rest }
  else
    let value ← Value.parseTyped [] rest
    return { g with type := value.type, initializer := some value }

theorem addValue_declaration_eq_ok_iff (hg : g.isDeclaration = true) :
    g.addValue s = .ok g' ↔ s ≠ [] ∧ g' = { g with type := String.ofList s } := by
  simp only [addValue, hg, if_true]
  cases s with
  | nil => exact iff_of_false (by rintro ⟨⟩) fun h => h.1 rfl
  | cons c s =>
      refine ⟨fun h => ⟨List.cons_ne_nil c s, (Except.ok.inj h).symm⟩, ?_⟩
      rintro ⟨-, rfl⟩
      rfl

theorem addValue_definition_eq_ok_iff (hg : g.isDeclaration = false) :
    g.addValue s = .ok g' ↔ ∃ v, Value.parseTyped [] s = .ok v ∧
      g' = { g with type := v.type, initializer := some v } := by
  simp only [addValue, hg, Bool.false_eq_true, if_false]
  rw [bind_eq_ok_iff]
  refine exists_congr fun v => and_congr_right fun _ => ⟨fun h => (Except.ok.inj h).symm, ?_⟩
  rintro rfl
  rfl

theorem parse_eq_ok_iff : parse s = .ok g ↔ ∃ front rest name parts g₁ g₂ body,
    splitAt? '=' s = some (front, rest) ∧ sigilName? '@' (trim front) = some name ∧
      splitOperands rest = .ok parts ∧
      parts.tail.foldlM addSuffix { name, type := "" } = .ok g₁ ∧
      readKeywords g₁ (parts.head?.getD []) = .ok (g₂, body) ∧ addValue g₂ body = .ok g := by
  unfold parse
  constructor
  · intro h
    split at h
    · cases h
    · next front rest hfront =>
        split at h
        · cases h
        · next name hname =>
            obtain ⟨parts, hparts, h⟩ := bind_eq_ok_iff.1 h
            obtain ⟨g₁, hg₁, h⟩ := bind_eq_ok_iff.1 h
            obtain ⟨⟨g₂, body⟩, hg₂, h⟩ := bind_eq_ok_iff.1 h
            exact ⟨front, rest, name, parts, g₁, g₂, body, hfront, hname, hparts, hg₁, hg₂, h⟩
  · rintro ⟨front, rest, name, parts, g₁, g₂, body, hfront, hname, hparts, hg₁, hg₂, h⟩
    rw [hfront]
    dsimp only
    rw [hname]
    exact bind_eq_ok_iff.2 ⟨parts, hparts, bind_eq_ok_iff.2 ⟨g₁, hg₁,
      bind_eq_ok_iff.2 ⟨(g₂, body), hg₂, h⟩⟩⟩

/-- An initializer that can be written behind its type. -/
def HasRegularInitializer (g : Global) : Prop :=
  ∀ v ∈ g.initializer, v.isRegular = true ∧ (v.isMetadata = true → Unbroken v.text.toList)

theorem hasRegularInitializer_of_isRegular (h : g.isRegular = true) : g.HasRegularInitializer := by
  intro v hv
  rw [isRegular, Option.mem_def.1 hv, Option.all_some] at h
  simp only [Bool.and_eq_true, Bool.or_eq_true, Bool.not_eq_true', List.any_eq_false] at h
  refine ⟨h.2.1, fun hmetadata c hc => ?_⟩
  rcases h.2.2 with hfalse | hblank
  · rw [hmetadata] at hfalse
    cases hfalse
  · exact Bool.eq_false_iff.2 (hblank c hc)

theorem eq_of_addValue (h : g.addValue s = .ok g') :
    g' = { g with type := g'.type, initializer := g'.initializer } := by
  rcases Bool.eq_false_or_eq_true g.isDeclaration with hdeclaration | hdeclaration
  · obtain ⟨-, rfl⟩ := (addValue_declaration_eq_ok_iff hdeclaration).1 h
    rfl
  · obtain ⟨v, -, rfl⟩ := (addValue_definition_eq_ok_iff hdeclaration).1 h
    rfl

/-- A value is read again from what is written behind the keywords. -/
theorem addValue_reread (hs : Piece s) (hsolid : s = [] ∨ Solid s) (h : g.addValue s = .ok g')
    (hnone : g.initializer = none) (hregular : g'.HasRegularInitializer) :
    Respelled s g'.valueText ∧ g.addValue g'.valueText = .ok g' := by
  rcases Bool.eq_false_or_eq_true g.isDeclaration with hdeclaration | hdeclaration
  · rw [addValue_declaration_eq_ok_iff hdeclaration] at h
    obtain ⟨hne, rfl⟩ := h
    have htext : ({ g with type := String.ofList s } : Global).valueText = s := by
      rw [valueText, hnone, String.toList_ofList]
      exact List.append_nil s
    rw [htext]
    refine ⟨⟨hsolid.resolve_left hne, hs, hs, .refl s⟩, ?_⟩
    exact (addValue_declaration_eq_ok_iff hdeclaration).2 ⟨hne, rfl⟩
  · rw [addValue_definition_eq_ok_iff hdeclaration] at h
    obtain ⟨v, hv, rfl⟩ := h
    obtain ⟨hv', hblank⟩ := hregular v rfl
    obtain ⟨hrespelled, hagain⟩ := Value.initializer_reread hs hv hv' hblank
    exact ⟨hrespelled, (addValue_definition_eq_ok_iff hdeclaration).2 ⟨v, hagain, rfl⟩⟩

/-- What stands behind the keywords, and whatever keeps it behind other keywords. -/
theorem of_readKeywords (hs : s = [] ∨ Solid s) (hpiece : Piece s)
    (h : readKeywords g s = .ok (g', rest)) : Piece rest ∧ (rest = [] ∨ Solid rest) ∧
      ∀ (f : Global) {t : List Char}, Keeps rest t → Keeps s (f.keyText t) := by
  obtain ⟨⟨keys, rfl, hchars⟩, hhead, -⟩ := readKeywords_eq_ok h
  obtain ⟨hkeysPiece, hkeysQuote⟩ := piece_keys hchars
  refine ⟨hpiece.of_append_left hkeysPiece, ?_, fun f t ht => ?_⟩
  · refine or_iff_not_imp_left.2 fun hne => ?_
    rcases hs with hnil | hsolid
    · exact absurd (List.append_eq_nil_iff.1 hnil).2 hne
    · exact hsolid.of_suffix rfl hne hhead
  · rw [keyText_eq]
    exact (Keeps.of_plain hkeysQuote (plain_keyText f)).append ht

/-- What stands between the equals sign and the suffix. -/
theorem exists_lead (hs : Solid s) (hpiece : Piece s) :
    ∃ lead, g.keyText s = ' ' :: lead ∧ Solid lead ∧ Piece lead := by
  obtain ⟨c, t, hkeys, hc⟩ := exists_keyText g
  have hkeysPiece : Piece (g.keyText []) := by
    refine (piece_keys fun c hc => ?_).1
    rcases of_mem_keyText hc with rfl | hc
    · exact .inl rfl
    · exact .inr hc
  have hlead := hkeysPiece.append hpiece
  rw [hkeys] at hlead
  have hhead : (c :: (t ++ s)).head?.any (!isBlank ·) = true := by
    rw [List.head?_cons, Option.any_some, hc]
    rfl
  refine ⟨c :: (t ++ s), ?_, .append (a := c :: t) hhead hs.last, ?_⟩
  · rw [keyText_eq, hkeys]
    rfl
  · exact Piece.of_append_left (a := [' ']) hlead blanks_space.piece

theorem keeps_suffixText {p : List Char} (hs : splitTop? s = some (p :: ps)) (hp : Keeps p t)
    (hquotes : ∀ s ∈ ps, '"' ∉ s) : Keeps s (t ++ g.suffixText) := by
  have hkeeps := Keeps.intercalate hs (List.forall₂_same.2 fun q _ => .refl q)
  rw [intercalate_comma] at hkeeps
  refine hkeeps.trans (hp.append (.of_plain ?_ ?_))
  · intro hmem
    obtain ⟨q, hq, hmem⟩ := List.mem_flatMap.1 hmem
    obtain ⟨r, hr, rfl⟩ := List.mem_map.1 hq
    simpa using hquotes r hr (by simpa using hmem)
  · intro c hc
    obtain ⟨q, hq, hc⟩ := List.mem_flatMap.1 hc
    obtain ⟨r, hr, rfl⟩ := List.mem_map.1 hq
    exact Plain.append (a := [',', ' ']) (by decide) (of_mem_suffixTexts hr).2.2 c hc

theorem splitOperands_suffixText (hs : Solid s) (hpiece : Piece s) :
    splitOperands (' ' :: s ++ g.suffixText) = .ok (s :: g.suffixTexts) := by
  have hsplit : splitTop? ([',', ' '].intercalate (s :: g.suffixTexts)) = some (s :: g.suffixTexts) :=
    splitTop?_intercalate (List.forall_mem_cons.2 ⟨⟨hs, hpiece⟩, fun t ht =>
      ⟨(of_mem_suffixTexts ht).1, (of_mem_suffixTexts ht).2.1⟩⟩)
  rw [intercalate_comma, ← splitTop?_blanks_append blanks_space] at hsplit
  have hsplit' : splitTop? (' ' :: s ++ g.suffixText) = some (s :: g.suffixTexts) := hsplit
  rw [splitOperands, hsplit']

theorem solid_suffixText (hs : Solid s) : Solid (s ++ g.suffixText) := by
  rw [suffixText, suffixTexts]
  cases g.alignment with
  | none => simpa using hs
  | some n =>
      have hident := isIdentifier_of_isNumeric (isNumeric_toString n.toNat)
      have hdigits : Solid (toString n.toNat).toList :=
        .of_unbroken (unbroken_of_isIdentifier hident) (ne_nil_of_isIdentifier hident)
      have halign : Solid (", align ".toList ++ (toString n.toNat).toList) := .append rfl hdigits.last
      have hsolid := Solid.append hs.head halign.last
      simpa using hsolid

theorem comment_of_parse (h : parse s = .ok g) : g.comment = none := by
  obtain ⟨front, rest, name, parts, g₁, g₂, body, -, -, -, hg₁, hg₂, hvalue⟩ := parse_eq_ok_iff.1 h
  rw [eq_of_addValue hvalue, (readKeywords_eq_ok hg₂).2.2, (foldlM_addSuffix_eq_ok hg₁).2]

/-- A variable is read again from what is written. -/
theorem parse_reread (h : parse s = .ok g) (hregular : g.HasRegularInitializer) :
    Solid g.text.toList ∧ Keeps s g.text.toList ∧ parse g.text.toList = .ok g := by
  obtain ⟨front, rest, name, parts, g₁, g₂, body, hfront, hname, hparts, hg₁, hg₂, hvalue⟩ :=
    parse_eq_ok_iff.1 h
  obtain ⟨rfl, -⟩ := splitAt?_eq_some_iff.1 hfront
  obtain ⟨hfrontName, hident⟩ := sigilName?_eq_some hname
  have hsplit := splitOperands_eq_ok_iff.1 hparts
  obtain ⟨hquotes, hg₁'⟩ := foldlM_addSuffix_eq_ok hg₁
  obtain ⟨-, -, hg₂'⟩ := readKeywords_eq_ok hg₂
  obtain ⟨p, ps, rfl⟩ : ∃ p ps, parts = p :: ps := by
    cases parts with
    | nil =>
        rw [List.head?_nil, Option.getD_none, readKeywords_eq_error (by unfold IsKind; decide)
          (addKeyword_empty g₁)] at hg₂
        cases hg₂
    | cons p ps => exact ⟨p, ps, rfl⟩
  obtain ⟨hpiece, hbody, hkeys⟩ := of_readKeywords (nil_or_solid_of_mem_splitTop? hsplit
    List.mem_cons_self) (piece_of_mem_splitTop? hsplit List.mem_cons_self) hg₂
  have hg := eq_of_addValue hvalue
  obtain ⟨hrespelled, hagain⟩ := addValue_reread hpiece hbody hvalue (by rw [hg₂', hg₁'])
    hregular
  have hgname : g.name = name := by rw [hg, hg₂', hg₁']
  obtain ⟨lead, hlead, hsolid, hleadPiece⟩ := exists_lead (g := g) hrespelled.solid hrespelled.piece
  have hleadKeeps : Keeps p (' ' :: lead) := by
    rw [← hlead]
    exact hkeys g hrespelled.keeps
  have hkeeps := keeps_suffixText (g := g) hsplit hleadKeeps hquotes
  have htext : g.text.toList = '@' :: name.toList ++ [' '] ++ '=' :: (' ' :: lead ++ g.suffixText) := by
    rw [toList_text, hgname, hlead]
    simp
  rw [htext]
  refine ⟨?_, ?_, ?_⟩
  · have hlast := (solid_suffixText (g := g) hsolid).last
    exact .append rfl (Solid.append (a := "= ".toList) rfl hlast).last
  · refine Keeps.append ?_ (.cons '=' hkeeps)
    have htrim := (Keeps.trim front).append .space
    rwa [List.append_nil, hfrontName] at htrim
  · refine parse_eq_ok_iff.2 ⟨_, _, name, _, g₁, g₂, g.valueText, splitAt?_eq_some_iff.2 ⟨rfl, ?_⟩,
      ?_, splitOperands_suffixText hsolid hleadPiece, ?_, ?_, hagain⟩
    · rw [List.cons_append, List.mem_cons, List.mem_append, not_or, not_or]
      exact ⟨by decide, not_mem_of_isIdentifier hident rfl, by decide⟩
    · have hsolidName : Solid ('@' :: name.toList) := .of_unbroken
        (Value.isWord_cons (.inr rfl) hident).unbroken (List.cons_ne_nil _ _)
      rw [trim_append_blanks blanks_space, hsolidName.trim_eq, sigilName?_cons hident]
    · rw [List.tail_cons, foldlM_suffixTexts rfl]
      exact congrArg Except.ok (by rw [hg₁', hg, hg₂', hg₁'])
    · rw [List.head?_cons, Option.getD_some, ← readKeywords_space, ← hlead,
        readKeywords_keywords hrespelled.solid.head_all]
      · exact congrArg (fun g => Except.ok (g, _)) (by rw [hg₂', hg, hg₂'])
      · rw [hg₁']
      · rw [hg₁']
      · rw [hg₁']

end Global

end SsaIr
