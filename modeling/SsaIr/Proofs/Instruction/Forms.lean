import SsaIr.Proofs.Instruction.Operands

/-!
# Pairs, conversions and flags

The incoming pairs of a phi, the conversion of a cast and the flags of a binary operation are read
again from the texts they are written as.
-/

namespace SsaIr.Instruction

open Text

variable {scope : List String} {i i' : Instruction} {rest arg out s a b : List Char}
  {type label : String} {v : Value} {args : List (List Char)}

/-! ## Incoming pairs -/

/-- An incoming pair as it is written. -/
def pairText (v : Value) (label : String) : List Char :=
  '[' :: (' ' :: v.text.toList ++ [',', ' ', '%'] ++ label.toList ++ [' ']) ++ [']']

theorem parseIncoming_eq_ok_iff {p : Value × String} :
    parseIncoming scope type arg = .ok p ↔
      ∃ inside value name, arg = '[' :: (inside ++ [']']) ∧
        splitOperands inside = .ok [value, name] ∧ sigilName? '%' name = some p.2 ∧
        Value.parse scope value type = .ok p.1 := by
  obtain ⟨v, label⟩ := p
  unfold parseIncoming
  constructor
  · intro h
    dsimp only at h
    split at h
    · cases h
    · next inside hinside =>
        obtain ⟨rest, hrest, hbefore⟩ := Option.bind_eq_some_iff.1 hinside
        have harg : arg = '[' :: (inside ++ [']']) := by
          rw [after?_eq_some_iff.1 hrest, before?_eq_some_iff.1 hbefore]
          rfl
        obtain ⟨parts, hparts, h⟩ := bind_eq_ok_iff.1 h
        split at h
        · next value name =>
            split at h
            · cases h
            · next n hn =>
                obtain ⟨v', hv, h⟩ := bind_eq_ok_iff.1 h
                obtain ⟨rfl, rfl⟩ := Prod.mk.inj (Except.ok.inj h)
                exact ⟨inside, value, name, harg, hparts, hn, hv⟩
        · cases h
  · rintro ⟨inside, value, name, rfl, hparts, hname, hv⟩
    have hinside : (after? ['['] ('[' :: (inside ++ [']']))).bind (before? [']']) =
        some inside := by
      have hbefore : before? [']'] (inside ++ [']']) = some inside := before?_eq_some_iff.2 rfl
      exact hbefore
    dsimp only
    rw [hinside]
    dsimp only
    apply bind_eq_ok_iff.2
    refine ⟨_, hparts, ?_⟩
    dsimp only
    rw [hname]
    dsimp only
    exact bind_eq_ok_iff.2 ⟨v, hv, rfl⟩

/-- What stands in the brackets of a pair. -/
def pairInside (v : Value) (label : String) : List Char :=
  ' ' :: v.text.toList ++ [',', ' ', '%'] ++ label.toList ++ [' ']

theorem splitOperands_pairInside {label : String} (hv : Solid v.text.toList ∧ Piece v.text.toList)
    (hident : isIdentifier label.toList = true) :
    splitOperands (pairInside v label) = .ok [v.text.toList, '%' :: label.toList] := by
  have hword : Value.IsWord ('%' :: label.toList) := Value.isWord_cons (.inl rfl) hident
  have hpieces : ∀ q ∈ [' ' :: v.text.toList, ' ' :: '%' :: label.toList ++ [' ']], Piece q := by
    have hfirst : Piece (' ' :: v.text.toList) := blanks_space.piece.append hv.2
    have hsecond : Piece (' ' :: '%' :: label.toList ++ [' ']) :=
      (blanks_space.piece.append hword.piece).append blanks_space.piece
    simp only [List.forall_mem_cons, List.not_mem_nil, false_implies, implies_true, and_true]
    exact ⟨hfirst, hsecond⟩
  have hsplit : pairInside v label =
      ' ' :: v.text.toList ++ [' ' :: '%' :: label.toList ++ [' ']].flatMap (',' :: ·) := by
    simp [pairInside]
  have htrims : [' ' :: v.text.toList, ' ' :: '%' :: label.toList ++ [' ']].map trim =
      [v.text.toList, '%' :: label.toList] := by
    have hsolid : Solid ('%' :: label.toList) := .of_unbroken hword.unbroken hword.ne_nil
    rw [List.map_cons, List.map_singleton, trim_append_blanks blanks_space, trim_space, trim_space,
      hv.1.trim_eq, hsolid.trim_eq]
  have hne : allBlank (' ' :: v.text.toList) = false := by
    rw [allBlank, List.all_cons, Bool.and_eq_false_iff]
    exact .inr hv.1.not_allBlank
  rw [splitOperands, hsplit, splitTop?_of_pieces (fun _ => hne) hpieces, htrims]

/-- A pair is written again, if its value is plain and regular. -/
theorem parseIncoming_reread (h : parseIncoming scope type arg = .ok (v, label))
    (harg : Piece arg) (hv : v.isRegular = true) (hplain : v.isPlain = true) :
    Respelled arg (pairText v label) ∧
      parseIncoming scope type (pairText v label) = .ok (v, label) := by
  obtain ⟨inside, value, name, rfl, hparts, hname, hparse⟩ := parseIncoming_eq_ok_iff.1 h
  obtain ⟨rfl, hident⟩ := sigilName?_eq_some hname
  have hreread := Value.reread_of_parse hparse hv
  have hoperands := splitOperands_pairInside ⟨hreread.solid, hreread.piece⟩ hident
  constructor
  · refine ⟨⟨rfl, ?_⟩, harg, ?_, ?_⟩
    · rw [pairText, List.getLast?_concat]
      rfl
    · refine Balanced.bracket ?_ rfl rfl
      exact balanced_of_splitTop? (splitOperands_eq_ok_iff.1 hoperands)
    · have hkeeps : Keeps inside (pairInside v label) := by
        have hlist := Keeps.intercalate (splitOperands_eq_ok_iff.1 hparts)
          (.cons hreread.keeps (.cons (.refl _) .nil))
        have hpad := (Keeps.space.append hlist).append Keeps.space
        simpa [pairInside] using hpad
      exact (Keeps.cons '[' hkeeps).append (.refl [']'])
  · apply parseIncoming_eq_ok_iff.2
    refine ⟨_, _, _, rfl, hoperands, sigilName?_cons hident, ?_⟩
    refine hreread.parse type (fun _ => rfl) fun hlabel => ?_
    rw [Value.isPlain, hlabel] at hplain
    cases hplain

theorem parsePhi_eq_ok_iff :
    parsePhi scope i rest = .ok i' ↔
      ∃ t args parts i₁ args', TypeToken.take rest = .ok (t, args) ∧
        splitOperands args = .ok parts ∧
        takeSuffixes { i with type := some (String.ofList t) } parts = .ok (i₁, args') ∧
        List.Forall₂ (fun a p => parseIncoming scope (String.ofList t) a = .ok p) args'
          i'.incoming ∧
        i'.incoming ≠ [] ∧ i' = { i₁ with incoming := i'.incoming } := by
  unfold parsePhi
  constructor
  · intro h
    obtain ⟨⟨t, args⟩, htake, h⟩ := bind_eq_ok_iff.1 h
    obtain ⟨parts, hparts, h⟩ := bind_eq_ok_iff.1 h
    obtain ⟨⟨i₁, args'⟩, hsuffixes, h⟩ := bind_eq_ok_iff.1 h
    obtain ⟨incoming, hincoming, h⟩ := bind_eq_ok_iff.1 h
    split at h
    · cases h
    · next hne =>
        obtain rfl := Except.ok.inj h
        refine ⟨t, args, parts, i₁, args', htake, hparts, hsuffixes, mapM_eq_ok_iff.1 hincoming,
          ?_, rfl⟩
        simpa using hne
  · rintro ⟨t, args, parts, i₁, args', htake, hparts, hsuffixes, hincoming, hne, hi⟩
    apply bind_eq_ok_iff.2
    refine ⟨(t, args), htake, bind_eq_ok_iff.2 ⟨parts, hparts, bind_eq_ok_iff.2 ?_⟩⟩
    refine ⟨(i₁, args'), hsuffixes, bind_eq_ok_iff.2 ⟨i'.incoming, ?_, ?_⟩⟩
    · exact mapM_eq_ok_iff.2 hincoming
    · rw [if_neg (by simpa using hne)]
      exact congrArg Except.ok hi.symm

theorem ne_nil_of_parseIncoming {p : Value × String}
    (h : parseIncoming scope type arg = .ok p) : arg ≠ [] := by
  obtain ⟨inside, value, name, rfl, -⟩ := parseIncoming_eq_ok_iff.1 h
  exact List.cons_ne_nil _ _

/-- The pairs of a phi as they are written. -/
def pairTexts (i : Instruction) : List (List Char) := i.incoming.map fun p => pairText p.1 p.2

theorem inert_pairText (v : Value) (label : String) : Inert (pairText v label) where
  paren := by simp [pairText]
  align := rfl
  metadata := by simp [pairText]
  colon := by
    have hsolid : Solid (pairText v label) := ⟨rfl, by rw [pairText, List.getLast?_concat]; rfl⟩
    rw [hsolid.endsInColon_iff, pairText, List.getLast?_concat]
    decide

theorem parsePhi_reread (h : parsePhi scope i rest = .ok i')
    (hv : ∀ p ∈ i'.incoming, p.1.isRegular = true ∧ p.1.isPlain = true) :
    ∃ t, i'.type = some t ∧
      Rewrites rest (t.toList ++ ' ' :: [',', ' '].intercalate (i'.pairTexts ++ i'.suffixes)) ∧
      parsePhi scope i (t.toList ++
        ' ' :: [',', ' '].intercalate (i'.pairTexts ++ i'.suffixes)) = .ok i' := by
  obtain ⟨t, args, parts, i₁, args', htake, hparts, hsuffixes, hincoming, hne, hi⟩ :=
    parsePhi_eq_ok_iff.1 h
  have hs := splitOperands_eq_ok_iff.1 hparts
  have htakes := takesSuffixes_of_eq_ok hsuffixes
  have htype : i'.type = some (String.ofList t) := by rw [hi, htakes.eq]
  have hsuf : i'.suffixes = i₁.suffixes := by rw [hi]; rfl
  obtain ⟨sources, hsources, -⟩ := htakes.sources
  have hreread : List.Forall₂ (fun a p => Respelled a (pairText p.1 p.2) ∧
      parseIncoming scope (String.ofList t) (pairText p.1 p.2) = .ok p) args' i'.incoming := by
    refine forall₂_imp_of_mem hincoming fun a p ha hp hparse => ?_
    have hpiece : Piece a := by
      apply piece_of_mem_splitTop? hs
      rw [hsources]
      exact List.mem_append_left sources ha
    exact parseIncoming_reread hparse hpiece (hv p hp).1 (hv p hp).2
  have hrespelled : List.Forall₂ Respelled args' i'.pairTexts :=
    List.forall₂_map_right_iff.2 (hreread.imp fun _ _ hr => hr.1)
  have hargs : ∀ a ∈ args', a ≠ [] :=
    forall_mem_of_forall₂ (hincoming.flip.imp fun _ _ hparse => ne_nil_of_parseIncoming hparse)
  have hbehind := htakes.reread_inert htake hs hargs hrespelled
    (List.forall_mem_map.2 fun p _ => inert_pairText p.1 p.2) (by simpa [pairTexts] using hne)
  refine ⟨String.ofList t, htype, ?_⟩
  rw [String.toList_ofList, hsuf]
  refine ⟨hbehind.rewrites, parsePhi_eq_ok_iff.2 ⟨t, _, _, i₁, _, hbehind.type, hbehind.split,
    hbehind.take, ?_, hne, hi⟩⟩
  rw [pairTexts, List.forall₂_map_left_iff, List.forall₂_same]
  exact forall_mem_of_forall₂ (hreread.imp fun _ _ hr => hr.2)

/-! ## Conversions -/

theorem splitAtLast?_eq_none_iff :
    splitAtLast? a s = none ↔ ∀ t, t <:+ s → after? a t = none := by
  induction s with
  | nil =>
      rw [splitAtLast?, Option.map_eq_none_iff]
      constructor
      · intro h t ht
        rwa [List.suffix_nil.1 ht]
      · intro h
        exact h [] (List.suffix_refl [])
  | cons c s ih =>
      rw [splitAtLast?]
      constructor
      · intro h t ht
        split at h
        · cases h
        · next hnone =>
            rcases List.suffix_cons_iff.1 ht with rfl | ht
            · exact Option.map_eq_none_iff.1 h
            · exact ih.1 hnone t ht
      · intro h
        have hnone := ih.2 fun t ht => h t (ht.trans (List.suffix_cons c s))
        rw [hnone]
        exact Option.map_eq_none_iff.2 (h _ (List.suffix_refl _))

theorem splitAtLast?_cons_of_some {d : Char} {sep : List Char}
    (h : splitAtLast? sep s = some (a, b)) : splitAtLast? sep (d :: s) = some (d :: a, b) := by
  rw [splitAtLast?, h]

theorem splitAtLast?_cons_of_none {d : Char} {sep : List Char} (h : splitAtLast? sep s = none) :
    splitAtLast? sep (d :: s) = (after? sep (d :: s)).map ([], ·) := by
  rw [splitAtLast?, h]

/-- The text is split where no further separator starts. -/
theorem splitAtLast?_eq_some_iff {c : Char} {sep : List Char} :
    splitAtLast? (c :: sep) s = some (a, b) ↔
      s = a ++ c :: sep ++ b ∧ splitAtLast? (c :: sep) (sep ++ b) = none := by
  constructor
  · intro h
    induction s generalizing a b with
    | nil => cases h
    | cons d s ih =>
        cases hs : splitAtLast? (c :: sep) s with
        | some p =>
            rw [splitAtLast?_cons_of_some hs] at h
            obtain ⟨rfl, rfl⟩ := Prod.mk.inj (Option.some.inj h)
            obtain ⟨rfl, hnone⟩ := ih hs
            exact ⟨rfl, hnone⟩
        | none =>
            rw [splitAtLast?_cons_of_none hs] at h
            obtain ⟨r, hr, he⟩ := Option.map_eq_some_iff.1 h
            obtain ⟨rfl, rfl⟩ := Prod.mk.inj he
            obtain ⟨rfl, rfl⟩ := List.cons.inj (after?_eq_some_iff.1 hr)
            exact ⟨rfl, hs⟩
  · rintro ⟨rfl, hnone⟩
    induction a with
    | nil =>
        have hafter : after? (c :: sep) (c :: (sep ++ b)) = some b := after?_eq_some_iff.2 rfl
        exact (splitAtLast?_cons_of_none hnone).trans (by rw [hafter]; rfl)
    | cons d a ih => exact splitAtLast?_cons_of_some ih

theorem parseCast_eq_ok_iff :
    parseCast scope i rest = .ok i' ↔
      ∃ t args parts i₁ conversion value destination v, TypeToken.take rest = .ok (t, args) ∧
        splitOperands args = .ok parts ∧
        takeSuffixes { i with type := some (String.ofList t) } parts = .ok (i₁, [conversion]) ∧
        splitAtLast? " to ".toList conversion = some (value, destination) ∧
        Value.parse scope value (String.ofList t) = .ok v ∧
        i' = { i₁ with
          operands := [v], castType := some (String.ofList (trim destination)) } := by
  unfold parseCast
  constructor
  · intro h
    obtain ⟨⟨t, args⟩, htake, h⟩ := bind_eq_ok_iff.1 h
    obtain ⟨parts, hparts, h⟩ := bind_eq_ok_iff.1 h
    obtain ⟨⟨i₁, args'⟩, hsuffixes, h⟩ := bind_eq_ok_iff.1 h
    dsimp only at h
    split at h
    · next conversion =>
        split at h
        · cases h
        · next value destination hsplit =>
            obtain ⟨v, hv, h⟩ := bind_eq_ok_iff.1 h
            obtain rfl := Except.ok.inj h
            exact ⟨t, args, parts, i₁, conversion, value, destination, v, htake, hparts,
              hsuffixes, hsplit, hv, rfl⟩
    · cases h
  · rintro ⟨t, args, parts, i₁, conversion, value, destination, v, htake, hparts, hsuffixes,
      hsplit, hv, rfl⟩
    apply bind_eq_ok_iff.2
    refine ⟨(t, args), htake, bind_eq_ok_iff.2 ⟨parts, hparts, bind_eq_ok_iff.2 ?_⟩⟩
    refine ⟨(i₁, [conversion]), hsuffixes, ?_⟩
    dsimp only
    rw [hsplit]
    exact bind_eq_ok_iff.2 ⟨v, hv, rfl⟩

/-- Without the blanks around it, a destination still has no separator. -/
theorem no_separator_of_trim (h : splitAtLast? " to ".toList ("to ".toList ++ b) = none)
    (hto : after? "to ".toList (trim b) = none) :
    splitAtLast? " to ".toList ("to ".toList ++ trim b) = none := by
  rw [splitAtLast?_eq_none_iff] at h ⊢
  intro t ht
  have hinside : ∀ t, t <:+ trim b → after? " to ".toList t = none := by
    intro t ht
    rw [Option.eq_none_iff_forall_not_mem]
    intro x hx
    obtain ⟨y, hy⟩ := ht
    obtain ⟨p, q, -, -, hb⟩ := exists_trim b
    have hsuffix : t ++ q <:+ "to ".toList ++ b := by
      refine ⟨"to ".toList ++ p ++ y, ?_⟩
      conv_rhs => rw [hb, ← hy]
      simp
    have hnone := h (t ++ q) hsuffix
    rw [after?_eq_some_iff.1 hx, List.append_assoc,
      after?_eq_some_iff.2 (rfl : " to ".toList ++ (x ++ q) = _)] at hnone
    cases hnone
  have hlead : ∀ c, c ≠ ' ' → ∀ r, after? " to ".toList (c :: r) = none := by
    intro c hc r
    exact if_neg (Ne.symm hc)
  change t <:+ 't' :: 'o' :: ' ' :: trim b at ht
  rcases List.suffix_cons_iff.1 ht with rfl | ht
  · exact hlead 't' (by decide) _
  · rcases List.suffix_cons_iff.1 ht with rfl | ht
    · exact hlead 'o' (by decide) _
    · rcases List.suffix_cons_iff.1 ht with rfl | ht
      · change after? "to ".toList (trim b) = none
        exact hto
      · exact hinside t ht

theorem parse_align {type : String} : Value.parse scope "align".toList type ≠ .ok v := by
  rw [Value.parse_eq]
  intro h
  cases h

/-- A conversion as it is written. -/
def conversionText (v : Value) (destination : List Char) : List Char :=
  v.text.toList ++ " to ".toList ++ destination

/-- A conversion that was read from an argument, written again. -/
structure RereadConversion (scope : List String) (type : String) (arg : List Char) (v : Value)
    (destination : List Char) : Prop extends Respelled arg (conversionText v destination) where
  parse : Value.parse scope v.text.toList type = .ok v
  split : splitAtLast? " to ".toList (conversionText v destination) =
    some (v.text.toList, destination)
  paren : (conversionText v destination).head? ≠ some '('
  align : after? "align ".toList (conversionText v destination) = none
  metadata : (conversionText v destination).head? ≠ some '!'
  colon : EndsInColon (conversionText v destination) → EndsInColon arg

theorem solid_destination (h : Solid (a ++ " to ".toList ++ b)) : Solid (trim b) := by
  apply solid_trim
  intro hnil
  have hblanks : Blanks b := allBlank_iff.1 (allBlank_of_trim_eq_nil hnil)
  have hlast := h.last
  rcases List.eq_nil_or_concat b with rfl | ⟨init, c, rfl⟩
  · rw [List.append_nil, List.getLast?_append] at hlast
    cases hlast
  · rw [List.concat_eq_append, ← List.append_assoc, List.getLast?_concat, Option.any_some,
      hblanks c (by simp)] at hlast
    cases hlast

theorem conversion_reread {value destination : List Char}
    (hsplit : splitAtLast? " to ".toList arg = some (value, destination))
    (hv : Value.parse scope value type = .ok v) (hregular : v.isRegular = true)
    (hplain : v.isPlain = true) (hsolid : Solid arg) (hpiece : Piece arg)
    (hto : after? "to ".toList (trim destination) = none) :
    RereadConversion scope type arg v (trim destination) := by
  obtain ⟨rfl, hnone⟩ := splitAtLast?_eq_some_iff.1 hsplit
  rw [Value.isPlain, Bool.and_eq_true, Bool.not_eq_true', Bool.not_eq_true'] at hplain
  have hshared := rereadShared_text hv hregular hplain.2 fun hl => by
    rw [hplain.1] at hl
    cases hl
  have hto_piece : Piece " to ".toList := by decide
  have hdestination : Piece (trim destination) :=
    piece_trim.2 (hpiece.of_append_left (hshared.source.append hto_piece))
  have hdestination_solid : Solid (trim destination) := solid_destination hsolid
  have hspace : conversionText v (trim destination) =
      v.text.toList ++ ' ' :: ("to ".toList ++ trim destination) := by
    rw [conversionText, List.append_assoc]
    rfl
  have hto_solid : Solid ("to ".toList ++ trim destination) :=
    .append (by decide) hdestination_solid.last
  constructor
  · refine ⟨?_, hpiece, (hshared.piece.append hto_piece).append hdestination, ?_⟩
    · rw [hspace]
      exact hshared.solid.append_space hto_solid
    · exact (hshared.keeps.append (.refl _)).append (.trim destination)
  · exact hshared.parse
  · exact splitAtLast?_eq_some_iff.2 ⟨rfl, no_separator_of_trim hnone hto⟩
  · rw [hspace, List.head?_append_of_ne_nil _ hshared.solid.ne_nil]
    exact hshared.paren
  · rw [Option.eq_none_iff_forall_not_mem]
    intro x hx
    rw [hspace] at hx
    have hsome : (after? ("align".toList ++ [' '])
        (v.text.toList ++ ' ' :: ("to ".toList ++ trim destination))).isSome = true :=
      Option.isSome_iff_exists.2 ⟨x, hx⟩
    rcases Value.after?_typed (by decide) hsome with hsome | htext
    · have hnone := hshared.align
      change (after? "align ".toList v.text.toList).isSome = true at hsome
      rw [hnone] at hsome
      cases hsome
    · have hparse := hshared.parse
      rw [htext] at hparse
      exact parse_align hparse
  · rw [hspace, List.head?_append_of_ne_nil _ hshared.solid.ne_nil]
    exact hshared.metadata
  · intro hcolon
    have hend := EndsInColon.of_append hcolon hdestination_solid.squeeze_ne_nil
    rw [endsInColon_trim] at hend
    exact hend.append_left

theorem parseCast_reread (h : parseCast scope i rest = .ok i')
    (hv : ∀ v ∈ i'.operands, v.isRegular = true ∧ v.isPlain = true)
    (hto : ∀ type, i'.castType = some type → after? "to ".toList type.toList = none) :
    ∃ t v destination, i'.type = some t ∧ i'.operands = [v] ∧ i'.castType = some destination ∧
      Rewrites rest (t.toList ++ ' ' :: [',', ' '].intercalate
        (conversionText v destination.toList :: i'.suffixes)) ∧
      parseCast scope i (t.toList ++ ' ' :: [',', ' '].intercalate
        (conversionText v destination.toList :: i'.suffixes)) = .ok i' := by
  obtain ⟨t, args, parts, i₁, conversion, value, destination, v, htake, hparts, hsuffixes, hsplit,
    hparse, rfl⟩ := parseCast_eq_ok_iff.1 h
  have hs := splitOperands_eq_ok_iff.1 hparts
  have htakes := takesSuffixes_of_eq_ok hsuffixes
  obtain ⟨sources, hsources, hissuffix⟩ := htakes.sources
  have hmem : conversion ∈ parts := by
    rw [hsources]
    exact List.mem_cons_self
  have hne : conversion ≠ [] := by
    rintro rfl
    cases hsplit
  obtain ⟨hregular, hplain⟩ := hv v List.mem_cons_self
  have hto' := hto _ rfl
  rw [String.toList_ofList (l := trim destination)] at hto'
  have hreread := conversion_reread hsplit hparse hregular hplain
    ((nil_or_solid_of_mem_splitTop? hs hmem).resolve_left hne) (piece_of_mem_splitTop? hs hmem) hto'
  have hclear : IsClear i₁ [conversionText v (trim destination)] := by
    constructor
    · intro _ q hq
      obtain rfl := Option.some.inj hq
      exact hreread.align
    · intro _ _ q hq
      obtain rfl := Option.some.inj hq
      exact hreread.metadata
  have hbehind := htakes.reread_behind htake hs
    (by simpa using hne) (.cons hreread.toRespelled .nil) hclear (List.cons_ne_nil _ _)
    (by
      intro q hq
      obtain rfl := Option.some.inj hq
      exact hreread.paren)
    (by
      intro hnil q hq hcolon
      obtain rfl := Option.some.inj hq
      rw [hnil] at hissuffix
      cases hissuffix
      refine .of_last hs ?_ (hreread.colon hcolon)
      rw [hsources]
      rfl)
  have htype : i₁.type = some (String.ofList t) := by rw [htakes.eq]
  refine ⟨String.ofList t, v, String.ofList (trim destination), htype, rfl, rfl, ?_⟩
  rw [String.toList_ofList, String.toList_ofList]
  refine ⟨hbehind.rewrites, parseCast_eq_ok_iff.2 ⟨t, _, _, i₁, _, v.text.toList, trim destination,
    v, hbehind.type, hbehind.split, hbehind.take, hreread.split, hreread.parse, ?_⟩⟩
  rw [trim_trim]

/-! ## Flags -/

theorem takeFlags_of_flag (h : isWrapFlag (nextToken s).1 = true) :
    takeFlags s = (String.ofList (nextToken s).1 :: (takeFlags (nextToken s).2).1,
      (takeFlags (nextToken s).2).2) := by
  rw [takeFlags, dif_pos h]

theorem takeFlags_of_not_flag (h : isWrapFlag (nextToken s).1 = false) :
    takeFlags s = ([], s) := by
  rw [takeFlags, dif_neg (by rw [h]; exact Bool.false_ne_true)]

theorem mem_of_isWrapFlag (h : isWrapFlag s = true) :
    s ∈ ["nsw".toList, "nuw".toList, "exact".toList] := by
  simpa [isWrapFlag] using h

theorem unbroken_of_isWrapFlag (h : isWrapFlag s = true) :
    Unbroken s ∧ s ≠ [] ∧ ∀ c ∈ ['(', '[', '\x7b', '<'], c ∉ s := by
  have hall : ∀ w ∈ ["nsw".toList, "nuw".toList, "exact".toList],
      Unbroken w ∧ w ≠ [] ∧ ['(', '[', '\x7b', '<'].all (!w.elem ·) = true := by decide
  obtain ⟨hunbroken, hne, hopening⟩ := hall s (mem_of_isWrapFlag h)
  exact ⟨hunbroken, hne, by simpa using hopening⟩

/-- The flags as they are written in front of a type. -/
def flagText (flags : List String) : List Char := flags.flatMap fun f => f.toList ++ [' ']

/-- What `takeFlags` takes are flags, and what it leaves starts with none. -/
theorem takeFlags_spec (s : List Char) :
    isWrapFlag (nextToken (takeFlags s).2).1 = false ∧
      (∀ f ∈ (takeFlags s).1, isWrapFlag f.toList = true) ∧
      Keeps s (flagText (takeFlags s).1 ++ (takeFlags s).2) ∧
      (EndsInColon (takeFlags s).2 → EndsInColon s) := by
  obtain ⟨n, hn⟩ : ∃ n, s.length = n := ⟨_, rfl⟩
  induction n using Nat.strongRecOn generalizing s with
  | ind n ih =>
      cases hflag : isWrapFlag (nextToken s).1 with
      | false =>
          rw [takeFlags_of_not_flag hflag]
          refine ⟨hflag, ?_, .refl s, id⟩
          intro f hf
          cases hf
      | true =>
          obtain ⟨-, hne, -⟩ := unbroken_of_isWrapFlag hflag
          have hlength : (nextToken s).2.length < n := by
            have hle := length_nextToken_le s
            have hpos := List.length_pos_iff.2 hne
            omega
          obtain ⟨hnot, hall, hkeeps, hcolon⟩ := ih _ hlength (nextToken s).2 rfl
          rw [takeFlags_of_flag hflag]
          refine ⟨hnot, ?_, ?_, ?_⟩
          · refine List.forall_mem_cons.2 ⟨?_, hall⟩
            rwa [String.toList_ofList]
          · have hcons : flagText (String.ofList (nextToken s).1 ::
                (takeFlags (nextToken s).2).1) ++ (takeFlags (nextToken s).2).2 =
                (nextToken s).1 ++ ' ' :: (flagText (takeFlags (nextToken s).2).1 ++
                  (takeFlags (nextToken s).2).2) := by
              simp [flagText]
            rw [hcons]
            exact (Keeps.nextToken s).trans ((Keeps.refl _).append (.cons ' ' hkeeps))
          · intro hend
            have hrest := hcolon hend
            rw [EndsInColon, squeeze_nextToken]
            unfold EndsInColon at hrest
            rw [List.getLast?_append, hrest]
            rfl

theorem solid_flagText {flags : List String} (h : ∀ f ∈ flags, isWrapFlag f.toList = true)
    (hs : Solid s) : Solid (flagText flags ++ s) := by
  refine ⟨?_, ?_⟩
  · cases flags with
    | nil => exact hs.head
    | cons f flags =>
        obtain ⟨hf, hne, -⟩ := unbroken_of_isWrapFlag (h f List.mem_cons_self)
        rw [flagText, List.flatMap_cons, List.append_assoc, List.append_assoc,
          List.head?_append_of_ne_nil _ hne]
        exact (Solid.of_unbroken hf hne).head
  · rw [List.getLast?_append_of_ne_nil _ hs.ne_nil]
    exact hs.last

/-- Flags are taken again from in front of what starts with none. -/
theorem takeFlags_flagText {flags : List String} (h : ∀ f ∈ flags, isWrapFlag f.toList = true)
    (hs : isWrapFlag (nextToken s).1 = false) (hsolid : Solid s) :
    takeFlags (flagText flags ++ s) = (flags, s) := by
  induction flags with
  | nil => exact takeFlags_of_not_flag hs
  | cons f flags ih =>
      obtain ⟨hf, hflags⟩ := List.forall_mem_cons.1 h
      obtain ⟨hunbroken, hne, -⟩ := unbroken_of_isWrapFlag hf
      have hsplit : flagText (f :: flags) ++ s = f.toList ++ ' ' :: (flagText flags ++ s) := by
        simp [flagText]
      have htoken := nextToken_space hunbroken hne (solid_flagText hflags hsolid).head_all
      have hflag : isWrapFlag (nextToken (f.toList ++ ' ' :: (flagText flags ++ s))).1 = true := by
        rwa [htoken]
      rw [hsplit, takeFlags_of_flag hflag, htoken, ih hflags, String.ofList_toList]

/-- A type does not turn into a flag when it is written with a blank behind it. -/
theorem isWrapFlag_of_take {t x : List Char} (htake : TypeToken.take s = .ok (t, arg))
    (ht : t ≠ []) (hcomma : arg.head? ≠ some ',')
    (h : isWrapFlag (nextToken (t ++ ' ' :: x)).1 = true) : isWrapFlag (nextToken s).1 = true := by
  have hsolid := TypeToken.solid_of_take htake ht
  rw [← nextToken_trimStart]
  by_cases hunbroken : Unbroken t
  · have hbreaks : Breaks (' ' :: x) := rfl
    rw [nextToken_append hunbroken ht hbreaks] at h
    obtain ⟨-, -, hbracket⟩ := unbroken_of_isWrapFlag h
    obtain ⟨head, rest, hhead, ⟨rfl, rfl, -⟩ | ⟨after, params, rest', -, hparams, rfl, -⟩⟩ :=
      TypeToken.take_cases htake
    · rcases TypeToken.takeHead_cases hhead with ⟨c, bracket, behind, hc, -, rfl, -⟩ |
        ⟨-, -, hrest⟩
      · refine absurd List.mem_cons_self (hbracket c ?_)
        rcases hc with rfl | rfl | rfl <;> simp
      · have hrest_breaks : Breaks rest := by
          cases hr : rest with
          | nil => rfl
          | cons c r =>
              have hstop : TypeToken.stops c = true := by
                have hfalse := TypeToken.head?_dropWhile (p := (!TypeToken.stops ·))
                  (s := trimStart s) (c := c) (by rw [← hrest, hr]; rfl)
                simpa using hfalse
              rw [TypeToken.stops, Bool.or_eq_true, beq_iff_eq] at hstop
              rcases hstop with hblank | rfl
              · exact hblank
              · rw [hr] at hcomma
                exact absurd (TypeToken.head?_trimStart_of_comma rfl) hcomma
        rw [← TypeToken.append_of_takeHead hhead, nextToken_append hunbroken ht hrest_breaks]
        exact h
    · obtain ⟨y, d, rfl, -, -⟩ := takeBracketed?_cons_eq_some rfl hparams
      exact absurd (by simp) (hbracket '(' List.mem_cons_self)
  · obtain ⟨gap, -, hsplit⟩ := TypeToken.exists_append_of_take htake
    rw [nextToken_append_of_broken hsolid hunbroken] at h
    rw [hsplit, List.append_assoc, nextToken_append_of_broken hsolid hunbroken]
    exact h

theorem isWrapFlag_of_parseShared {x : List Char} (h : parseShared scope i rest = .ok i')
    (htype : i'.type = some type)
    (hflag : isWrapFlag (nextToken (type.toList ++ ' ' :: x)).1 = true) :
    isWrapFlag (nextToken rest).1 = true := by
  obtain ⟨t, args, parts, i₁, args', htake, hparts, hsuffixes, hoperands, hi⟩ :=
    parseShared_eq_ok_iff.1 h
  have hs := splitOperands_eq_ok_iff.1 hparts
  have htakes := takesSuffixes_of_eq_ok hsuffixes
  have hargs : ∀ a ∈ args', a ≠ [] :=
    forall_mem_of_forall₂ (hoperands.flip.imp fun _ _ hparse => ne_nil_of_parse hparse)
  rw [hi, htakes.eq] at htype
  obtain rfl := Option.some.inj htype
  rw [String.toList_ofList] at hflag
  exact isWrapFlag_of_take htake (htakes.type_ne_nil htake hs hargs)
    (htakes.head?_ne_comma hs hargs) hflag

/-! ## Types without operands -/

theorem keeps_type {t : List Char} (htake : TypeToken.take s = .ok (t, arg)) (hu : Keeps arg b) :
    Keeps s (t ++ b) := by
  obtain ⟨gap, hgap, hsplit⟩ := TypeToken.exists_append_of_take htake
  apply (Keeps.trimStart s).trans
  rw [hsplit, List.append_assoc]
  exact (Keeps.refl t).append ((Keeps.of_blanks hgap (b := []) (by decide)).append hu)

/-- The operands and suffixes of an allocation as they are written behind its type. -/
def allocaTail (i : Instruction) : List Char :=
  ((i.operands.map fun v => v.typedText.toList) ++ i.suffixes).flatMap ([',', ' '] ++ ·)

theorem allocaTail_of_nil (h : i.operands = [] ∧ i.suffixes = []) : i.allocaTail = [] := by
  rw [allocaTail, h.1, h.2]
  rfl

theorem allocaTail_of_ne_nil (h : ¬(i.operands = [] ∧ i.suffixes = [])) :
    i.allocaTail = ',' :: ' ' :: i.typedText := by
  rw [allocaTail, typedText]
  cases hps : (i.operands.map fun v => v.typedText.toList) ++ i.suffixes with
  | nil =>
      obtain ⟨hoperands, hsuffixes⟩ := List.append_eq_nil_iff.1 hps
      exact absurd ⟨List.map_eq_nil_iff.1 hoperands, hsuffixes⟩ h
  | cons p ps =>
      rw [intercalate_comma, List.flatMap_map]
      rfl

theorem parseAlloca_type {t : List Char} (ht : TypeToken.IsToken t) :
    parseAlloca scope i t = .ok { i with type := some (String.ofList t) } := by
  unfold parseAlloca
  exact bind_eq_ok_iff.2 ⟨(t, []), ht.take_self, rfl⟩

theorem parseAlloca_typed {t x : List Char} (ht : TypeToken.IsToken t) :
    parseAlloca scope i (t ++ ',' :: x) =
      parseTyped scope { i with type := some (String.ofList t) } x := by
  have htake := ht.take (',' :: x) (fun c hc => by
    obtain rfl := Option.some.inj hc
    rfl) (by
    rw [trimStart_of_head (s := ',' :: x) rfl]
    simp)
  rw [trimStart_of_head (s := ',' :: x) rfl] at htake
  unfold parseAlloca
  rw [htake]
  rfl

theorem parseAlloca_cases (h : parseAlloca scope i rest = .ok i') :
    ∃ t args, TypeToken.take rest = .ok (t, args) ∧
      (args = [] ∧ i' = { i with type := some (String.ofList t) } ∨
        ∃ counts, args = ',' :: counts ∧
          parseTyped scope { i with type := some (String.ofList t) } counts = .ok i') := by
  unfold parseAlloca at h
  obtain ⟨⟨t, args⟩, htake, h⟩ := bind_eq_ok_iff.1 h
  refine ⟨t, args, htake, ?_⟩
  dsimp only at h
  split at h
  · obtain rfl := Except.ok.inj h
    exact .inl ⟨rfl, rfl⟩
  · next counts => exact .inr ⟨counts, rfl, h⟩
  · cases h

/-- The instruction is what `parseTyped` leaves of one without operands and suffixes. -/
theorem eq_of_parseTyped (h : parseTyped scope i rest = .ok i')
    (hi : i.operands = [] ∧ i.suffixes = []) (hi' : i'.operands = [] ∧ i'.suffixes = []) :
    i' = i := by
  obtain ⟨parts, i₁, args', -, hsuffixes, -, heq⟩ := parseTyped_eq_ok_iff.1 h
  have htakes := (takesSuffixes_of_eq_ok hsuffixes).eq
  obtain ⟨halign, hmetadata⟩ := suffixes_eq_nil_iff.1 hi.2
  obtain ⟨halign', hmetadata'⟩ := suffixes_eq_nil_iff.1 hi'.2
  have h₁ : i₁.alignment = none ∧ i₁.metadata = none := by
    rw [heq] at halign' hmetadata'
    exact ⟨halign', hmetadata'⟩
  rw [h₁.1, h₁.2] at htakes
  rw [heq, hi'.1, htakes]
  cases i
  simp only at hi halign hmetadata
  rw [hi.1, halign, hmetadata]

/-- A type may be written alone if nothing stood behind it but what may be left out. -/
theorem rewrites_alloca_type {t args : List Char} (htake : TypeToken.take rest = .ok (t, args))
    (htoken : TypeToken.IsToken t) (hargs : Keeps args [])
    (hcolon : t.getLast? ≠ some ':') : Rewrites rest t := by
  refine ⟨htoken.solid, ?_, fun hend => ?_⟩
  · have hkeeps := keeps_type htake hargs
    rwa [List.append_nil] at hkeeps
  · rw [htoken.solid.endsInColon_iff] at hend
    exact absurd hend hcolon

theorem rewrites_alloca_counts {t counts : List Char}
    (htake : TypeToken.take rest = .ok (t, ',' :: counts)) (htoken : TypeToken.IsToken t)
    (h : RereadTypedList scope i i' counts) (hsolid : Solid i'.typedText) :
    Rewrites rest (t ++ ',' :: ' ' :: i'.typedText) := by
  have hsplit : t ++ ',' :: ' ' :: i'.typedText = (t ++ [',', ' ']) ++ i'.typedText := by simp
  refine ⟨?_, keeps_type htake (.cons ',' (Keeps.space.append h.keeps)), fun hend => ?_⟩
  · rw [hsplit]
    refine .append ?_ hsolid.last
    rw [List.head?_append_of_ne_nil _ htoken.solid.ne_nil]
    exact htoken.solid.head
  · rw [hsplit] at hend
    apply endsInColon_of_take htake
    rw [← List.singleton_append]
    exact (h.colon (hend.of_append hsolid.squeeze_ne_nil)).append_left

theorem type_of_parseAlloca {t args : List Char}
    (h : args = [] ∧ i' = { i with type := some (String.ofList t) } ∨
      ∃ counts, args = ',' :: counts ∧
        parseTyped scope { i with type := some (String.ofList t) } counts = .ok i') :
    i'.type = some (String.ofList t) := by
  rcases h with ⟨-, rfl⟩ | ⟨counts, -, hcounts⟩
  · rfl
  · obtain ⟨parts, i₁, args', -, hsuffixes, -, heq⟩ := parseTyped_eq_ok_iff.1 hcounts
    rw [heq, (takesSuffixes_of_eq_ok hsuffixes).eq]

theorem parseAlloca_reread (h : parseAlloca scope i rest = .ok i')
    (hi : i.operands = [] ∧ i.suffixes = []) (hv : Value.areRegular i'.operands = true)
    (hend : i'.endsInMetadata = false)
    (hne : ∀ t, i'.type = some t → t ≠ "" ∧ t.toList.getLast? ≠ some ':') :
    ∃ t, i'.type = some t ∧ Rewrites rest (t.toList ++ i'.allocaTail) ∧
      parseAlloca scope i (t.toList ++ i'.allocaTail) = .ok i' := by
  obtain ⟨t, args, htake, hcases⟩ := parseAlloca_cases h
  have htype := type_of_parseAlloca hcases
  obtain ⟨hne, hcolon⟩ := hne _ htype
  have htoken : TypeToken.IsToken t := TypeToken.isToken_of_take htake fun hnil => hne (by
    rw [hnil, String.ofList_nil])
  rw [String.toList_ofList] at hcolon
  refine ⟨String.ofList t, htype, ?_⟩
  rw [String.toList_ofList]
  by_cases hnil : i'.operands = [] ∧ i'.suffixes = []
  · rw [allocaTail_of_nil hnil, List.append_nil, parseAlloca_type htoken]
    rcases hcases with ⟨rfl, rfl⟩ | ⟨counts, rfl, hcounts⟩
    · exact ⟨rewrites_alloca_type htake htoken (.refl []) hcolon, rfl⟩
    · have hkeeps := (parseTyped_reread hcounts hv hend).keeps
      rw [typedText, hnil.1, hnil.2] at hkeeps
      have hcomma : Keeps (',' :: counts) [] :=
        (Keeps.cons ',' hkeeps).trans (.of_plain (by decide) (by decide))
      refine ⟨rewrites_alloca_type htake htoken hcomma hcolon, ?_⟩
      rw [eq_of_parseTyped hcounts hi hnil]
  · rw [allocaTail_of_ne_nil hnil, parseAlloca_typed htoken]
    rcases hcases with ⟨-, rfl⟩ | ⟨counts, rfl, hcounts⟩
    · exact absurd hi hnil
    · have hreread := parseTyped_reread hcounts hv hend
      exact ⟨rewrites_alloca_counts htake htoken hreread (hreread.solid hnil),
        parseTyped_space hreread.parse⟩

theorem expectOperands_eq_ok_iff {count : Nat} :
    expectOperands count i = .ok i' ↔ i.operands.length = count ∧ i' = i := by
  unfold expectOperands
  split
  · next hcount =>
      constructor
      · intro h
        exact ⟨hcount, (Except.ok.inj h).symm⟩
      · rintro ⟨-, rfl⟩
        rfl
  · next hcount =>
      constructor
      · intro h
        cases h
      · rintro ⟨h, -⟩
        exact absurd h hcount

/-- The suffixes of a return without a value, or nothing. -/
def VoidSuffixes (args : List Char) (parts : List (List Char)) : Prop :=
  args = [] ∧ parts = [] ∨ ∃ s, args = ',' :: s ∧ splitOperands s = .ok parts

/-- Suffixes that leave no argument over. -/
theorem takeSuffixes_alone_iff (place : String) {parts : List (List Char)} :
    ((takeSuffixes i parts).bind fun p => (expectNoMore place p.2).bind fun _ => .ok p.1) =
      .ok i' ↔ takeSuffixes i parts = .ok (i', []) := by
  constructor
  · intro h
    obtain ⟨⟨i₁, extra⟩, hsuffixes, h⟩ := bind_eq_ok_iff.1 h
    obtain ⟨_, hextra, h⟩ := bind_eq_ok_iff.1 h
    obtain rfl := Except.ok.inj h
    cases extra with
    | nil => exact hsuffixes
    | cons p ps => cases hextra
  · intro h
    exact bind_eq_ok_iff.2 ⟨(i', []), h, rfl⟩

theorem parseRet_eq_ok_iff :
    parseRet scope i rest = .ok i' ↔
      ∃ t args, TypeToken.take rest = .ok (t, args) ∧
        ((t = TypeToken.void.toList ∧ ∃ parts, VoidSuffixes args parts ∧
          takeSuffixes { i with type := some TypeToken.void } parts = .ok (i', [])) ∨
        (t ≠ TypeToken.void.toList ∧ parseShared scope i rest = .ok i' ∧
          i'.operands.length = 1)) := by
  have hvoid : ∀ t : List Char, String.ofList t = TypeToken.void ↔ t = TypeToken.void.toList := by
    intro t
    constructor
    · intro h
      rw [← h, String.toList_ofList]
    · rintro rfl
      exact String.ofList_toList
  unfold parseRet
  constructor
  · intro h
    obtain ⟨⟨t, args⟩, htake, h⟩ := bind_eq_ok_iff.1 h
    refine ⟨t, args, htake, ?_⟩
    dsimp only at h
    split at h
    · next ht =>
        left
        refine ⟨(hvoid t).1 ht, ?_⟩
        split at h
        · exact ⟨[], .inl ⟨rfl, rfl⟩, (takeSuffixes_alone_iff "ret void").1 h⟩
        · next s =>
            obtain ⟨parts, hparts, h⟩ := bind_eq_ok_iff.1 h
            exact ⟨parts, .inr ⟨s, rfl, hparts⟩, (takeSuffixes_alone_iff "ret void").1 h⟩
        · cases h
    · next ht =>
        right
        obtain ⟨i₁, hshared, h⟩ := bind_eq_ok_iff.1 h
        obtain ⟨hcount, rfl⟩ := expectOperands_eq_ok_iff.1 h
        exact ⟨fun h => ht ((hvoid t).2 h), hshared, hcount⟩
  · rintro ⟨t, args, htake, ⟨ht, parts, hargs, hsuffixes⟩ | ⟨ht, hshared, hcount⟩⟩
    · apply bind_eq_ok_iff.2
      refine ⟨(t, args), htake, ?_⟩
      dsimp only
      rw [if_pos ((hvoid t).2 ht)]
      rcases hargs with ⟨rfl, rfl⟩ | ⟨s, rfl, hs⟩
      · exact (takeSuffixes_alone_iff "ret void").2 hsuffixes
      · exact bind_eq_ok_iff.2 ⟨parts, hs, (takeSuffixes_alone_iff "ret void").2 hsuffixes⟩
    · apply bind_eq_ok_iff.2
      refine ⟨(t, args), htake, ?_⟩
      dsimp only
      rw [if_neg (fun h => ht ((hvoid t).1 h))]
      exact bind_eq_ok_iff.2 ⟨i', hshared, expectOperands_eq_ok_iff.2 ⟨hcount, rfl⟩⟩

/-- The suffixes of a return without a value are written where they were read. -/
theorem VoidSuffixes.reread {parts : List (List Char)} (h : VoidSuffixes arg parts)
    (htakes : TakesSuffixes i i' parts []) :
    RereadSuffixes i i' (arg.drop 1) ∧ Keeps arg i'.suffixText.toList ∧
      (EndsInColon i'.suffixText.toList → EndsInColon arg) := by
  rcases h with ⟨rfl, rfl⟩ | ⟨s, rfl, hs⟩
  · obtain ⟨sources, hsources, hsuffix⟩ := htakes.sources
    obtain rfl : sources = [] := hsources.symm
    have hnil : i'.suffixes = [] := by
      generalize i'.suffixes = suffixes at hsuffix
      cases hsuffix
      rfl
    rw [suffixText_of_nil hnil]
    exact ⟨htakes.reread_alone (s := []) rfl, .refl [], id⟩
  · have hreread := htakes.reread_alone (splitOperands_eq_ok_iff.1 hs)
    exact ⟨hreread, hreread.keeps, fun hend => (hreread.colon hend).append_left (a := [','])⟩

/-- A return without a value is read again with its suffixes. -/
theorem parseRet_void_reread {parts : List (List Char)}
    (htake : TypeToken.take rest = .ok (TypeToken.void.toList, arg))
    (hargs : VoidSuffixes arg parts)
    (hsuffixes : takeSuffixes { i with type := some TypeToken.void } parts = .ok (i', [])) :
    Rewrites rest (TypeToken.void.toList ++ i'.suffixText.toList) ∧
      parseRet scope i (TypeToken.void.toList ++ i'.suffixText.toList) = .ok i' := by
  have htakes := takesSuffixes_of_eq_ok hsuffixes
  have htoken := TypeToken.isToken_void
  obtain ⟨hreread, hkeeps, hcolon⟩ := hargs.reread htakes
  have hkeeps' := keeps_type htake hkeeps
  by_cases hnil : i'.suffixes = []
  · have htake' := hreread.take
    rw [hnil] at htake'
    rw [suffixText_of_nil hnil, List.append_nil] at hkeeps' ⊢
    refine ⟨⟨htoken.solid, hkeeps', ?_⟩, parseRet_eq_ok_iff.2 ?_⟩
    · rw [htoken.solid.endsInColon_iff]
      exact fun hend => absurd hend (by decide)
    · exact ⟨_, [], htoken.take_self, .inl ⟨rfl, [], .inl ⟨rfl, rfl⟩, htake'⟩⟩
  · have hsolid := hreread.solid hnil
    rw [suffixText_of_ne_nil hnil] at hkeeps' hcolon ⊢
    have hlast : (TypeToken.void.toList ++ ',' :: ' ' ::
        [',', ' '].intercalate i'.suffixes).getLast?.any (!isBlank ·) = true := by
      have h := (Solid.append (a := ['v', 'o', 'i', 'd', ',', ' ']) rfl hsolid.last).last
      exact h
    refine ⟨⟨⟨rfl, hlast⟩, hkeeps', ?_⟩, parseRet_eq_ok_iff.2 ?_⟩
    · intro hend
      have hne : squeeze (',' :: ' ' :: [',', ' '].intercalate i'.suffixes) ≠ [] := by
        rw [squeeze_cons_of_not_blank (by decide)]
        exact List.cons_ne_nil _ _
      exact endsInColon_of_take htake (hcolon (hend.of_append hne))
    · have htake' := htoken.take (',' :: ' ' :: [',', ' '].intercalate i'.suffixes)
        (by simp [TypeToken.stops]) (by simp [trimStart, isBlank])
      exact ⟨_, _, htake', .inl ⟨rfl, i'.suffixes,
        .inr ⟨_, rfl, splitOperands_space hreread.split⟩, hreread.take⟩⟩

end SsaIr.Instruction
