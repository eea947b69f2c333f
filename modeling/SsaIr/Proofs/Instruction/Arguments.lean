import SsaIr.Instruction.Parser
import SsaIr.Instruction.Printer
import SsaIr.Proofs.Value.RoundTrip

/-!
# Arguments with suffixes

Operands are written between commas, and behind them the alignment and the metadata tag. The
suffixes are told from the operands again, as long as the last operand does not look like one.
-/

namespace SsaIr.Instruction

open Text

variable {i i' : Instruction} {s arg out : List Char} {args args' parts outs : List (List Char)}
  {n : UInt32} {tag : List Char}

/-- An alignment as it is written. -/
def alignmentText (n : UInt32) : List Char := "align ".toList ++ (toString n.toNat).toList

/-- The suffixes as they are written. -/
def suffixes (i : Instruction) : List (List Char) :=
  (i.alignment.map alignmentText).toList ++ (i.metadata.map String.toList).toList

theorem suffixText_eq (i : Instruction) :
    i.suffixText.toList = i.suffixes.flatMap ([',', ' '] ++ ·) := by
  unfold suffixText suffixes alignmentText
  cases i.alignment <;> cases i.metadata <;> simp

theorem suffixes_eq_nil_iff : i.suffixes = [] ↔ i.alignment = none ∧ i.metadata = none := by
  unfold suffixes
  cases i.alignment <;> cases i.metadata <;> simp

/-- Suffixes follow the operands as further parts of the list. -/
theorem intercalate_append_suffixes (houts : outs ≠ []) :
    [',', ' '].intercalate (outs ++ i.suffixes) =
      [',', ' '].intercalate outs ++ i.suffixText.toList := by
  rw [suffixText_eq, intercalate_comma_append houts]

/-! ## One suffix -/

theorem takeMetadata_append : takeMetadata (args ++ [('!' :: tag)]) =
    (args, some (String.ofList ('!' :: tag))) := by
  rw [takeMetadata, List.getLast?_concat, List.dropLast_concat]
  rfl

theorem takeMetadata_of_last (h : ∀ p, args.getLast? = some p → p.head? ≠ some '!') :
    takeMetadata args = (args, none) := by
  unfold takeMetadata
  split
  · next hlast => exact absurd rfl (h _ hlast)
  · rfl

theorem takeAlignment_append : takeAlignment (args ++ [alignmentText n]) = .ok (args, some n) := by
  have hnumeral : after? "align ".toList (alignmentText n) = some (toString n.toNat).toList :=
    after?_eq_some_iff.2 rfl
  have hident := isIdentifier_of_isNumeric (isNumeric_toString n.toNat)
  have hsolid : Solid (toString n.toNat).toList :=
    .of_unbroken (unbroken_of_isIdentifier hident) (ne_nil_of_isIdentifier hident)
  unfold takeAlignment
  rw [List.getLast?_concat, Option.bind_some, hnumeral]
  dsimp only
  rw [hsolid.trim_eq, uint32?_toString]
  dsimp only
  rw [List.dropLast_concat]

theorem takeAlignment_of_last
    (h : ∀ p, args.getLast? = some p → after? "align ".toList p = none) :
    takeAlignment args = .ok (args, none) := by
  have hnone : args.getLast?.bind (after? "align ".toList) = none := by
    rw [Option.bind_eq_none_iff]
    exact h
  rw [takeAlignment, hnone]

/-- How a suffix stands to the argument it was read from. -/
structure IsSuffix (arg out : List Char) : Prop where
  ne_nil : arg ≠ []
  keeps : Keeps arg out
  solid : Solid arg → Solid out
  piece : Piece arg → Piece out
  colon : EndsInColon out → EndsInColon arg

theorem IsSuffix.metadata (tag : List Char) : IsSuffix ('!' :: tag) ('!' :: tag) :=
  ⟨List.cons_ne_nil _ _, .refl _, id, id, id⟩

theorem isIdentifier_numeral (n : UInt32) : isIdentifier (toString n.toNat).toList = true :=
  isIdentifier_of_isNumeric (isNumeric_toString n.toNat)

theorem solid_alignmentText (n : UInt32) : Solid (alignmentText n) := by
  have hident := isIdentifier_numeral n
  refine .append (by decide) ?_
  exact (Solid.of_unbroken (unbroken_of_isIdentifier hident) (ne_nil_of_isIdentifier hident)).last

theorem IsSuffix.alignment {numeral : List Char} (h : uint32? (trim numeral) = some n) :
    IsSuffix ("align ".toList ++ numeral) (alignmentText n) := by
  have hident := isIdentifier_numeral n
  have hsolid := solid_alignmentText n
  constructor
  · simp
  · refine (Keeps.refl "align ".toList).append ((Keeps.trim numeral).trans ?_)
    exact .of_plain (not_mem_quote_of_uint32? h) (plain_of_isIdentifier hident)
  · exact fun _ => hsolid
  · intro _
    have hlead : Piece "align ".toList := by decide
    exact hlead.append (piece_of_isIdentifier hident)
  · intro hcolon
    rw [hsolid.endsInColon_iff] at hcolon
    have hmem := List.mem_of_getLast? hcolon
    rcases List.mem_append.1 hmem with hmem | hmem
    · exact absurd hmem (by decide)
    · exact absurd hmem (not_mem_of_isIdentifier hident rfl)

/-! ## All suffixes -/

/-- Nothing that is left in front of the suffixes looks like one. -/
structure IsClear (i : Instruction) (args : List (List Char)) : Prop where
  align : i.alignment = none → ∀ p, args.getLast? = some p → after? "align ".toList p = none
  metadata : i.alignment = none → i.metadata = none →
    ∀ p, args.getLast? = some p → p.head? ≠ some '!'

/-- An argument that is taken neither for a parameter list, nor for a suffix, nor for a label. -/
structure Inert (out : List Char) : Prop where
  paren : out.head? ≠ some '('
  align : after? "align ".toList out = none
  metadata : out.head? ≠ some '!'
  colon : ¬EndsInColon out

theorem isClear_of_inert (h : ∀ p ∈ outs, Inert p) : IsClear i outs where
  align := fun _ p hp => (h p (List.mem_of_getLast? hp)).align
  metadata := fun _ _ p hp => (h p (List.mem_of_getLast? hp)).metadata

theorem takeMetadata_cases (args : List (List Char)) :
    (∃ args' tag, args = args' ++ [('!' :: tag)] ∧
      takeMetadata args = (args', some (String.ofList ('!' :: tag)))) ∨
    takeMetadata args = (args, none) := by
  by_cases h : ∀ p, args.getLast? = some p → p.head? ≠ some '!'
  · exact .inr (takeMetadata_of_last h)
  · left
    simp only [not_forall, not_not] at h
    obtain ⟨p, hlast, hhead⟩ := h
    cases p with
    | nil => cases hhead
    | cons c tag =>
        obtain rfl := Option.some.inj hhead
        obtain ⟨args', rfl⟩ := List.getLast?_eq_some_iff.1 hlast
        exact ⟨args', tag, rfl, takeMetadata_append⟩

theorem takeAlignment_cases {alignment : Option UInt32}
    (h : takeAlignment args = .ok (args', alignment)) :
    (∃ numeral n, alignment = some n ∧ args = args' ++ ["align ".toList ++ numeral] ∧
      uint32? (trim numeral) = some n) ∨
    alignment = none ∧ args' = args ∧
      ∀ p, args.getLast? = some p → after? "align ".toList p = none := by
  unfold takeAlignment at h
  split at h
  · next hnone =>
      obtain ⟨rfl, rfl⟩ := Prod.mk.inj (Except.ok.inj h)
      exact .inr ⟨rfl, rfl, Option.bind_eq_none_iff.1 hnone⟩
  · next numeral hnumeral =>
      obtain ⟨p, hlast, hafter⟩ := Option.bind_eq_some_iff.1 hnumeral
      obtain rfl := after?_eq_some_iff.1 hafter
      obtain ⟨init, rfl⟩ := List.getLast?_eq_some_iff.1 hlast
      split at h
      · next n hn =>
          obtain ⟨rfl, rfl⟩ := Prod.mk.inj (Except.ok.inj h)
          rw [List.dropLast_concat]
          exact .inl ⟨numeral, n, rfl, rfl, hn⟩
      · cases h

/-- The last arguments are the suffixes that the second instruction has. -/
structure TakesSuffixes (i i' : Instruction) (args args' : List (List Char)) : Prop where
  eq : i' = { i with alignment := i'.alignment, metadata := i'.metadata }
  sources : ∃ sources, args = args' ++ sources ∧ List.Forall₂ IsSuffix sources i'.suffixes
  tag : ∀ tag, i'.metadata = some tag → tag.toList.head? = some '!'
  align : i'.alignment = none → ∀ p, args'.getLast? = some p → after? "align ".toList p = none

theorem takesSuffixes_of_eq_ok (h : takeSuffixes i args = .ok (i', args')) :
    TakesSuffixes i i' args args' := by
  unfold takeSuffixes at h
  dsimp only at h
  obtain ⟨⟨args'', alignment⟩, halign, h⟩ := bind_eq_ok_iff.1 h
  obtain ⟨rfl, rfl⟩ := Prod.mk.inj (Except.ok.inj h)
  have hsource : (∃ sources, (takeMetadata args).1 = args'' ++ sources ∧
      List.Forall₂ IsSuffix sources (alignment.map alignmentText).toList) ∧
      (alignment = none → ∀ p, args''.getLast? = some p → after? "align ".toList p = none) := by
    rcases takeAlignment_cases halign with ⟨numeral, n, rfl, hargs, hn⟩ | ⟨rfl, rfl, hlast⟩
    · exact ⟨⟨_, hargs, .cons (.alignment hn) .nil⟩, fun hnone => by cases hnone⟩
    · exact ⟨⟨[], (List.append_nil _).symm, .nil⟩, fun _ => hlast⟩
  obtain ⟨⟨sources, hsources, hsuffix⟩, hlast⟩ := hsource
  rcases takeMetadata_cases args with ⟨init, tag, rfl, htake⟩ | htake
  · rw [htake] at hsources ⊢
    have hlist : (String.ofList ('!' :: tag)).toList = '!' :: tag := String.toList_ofList
    refine ⟨rfl, ⟨sources ++ [('!' :: tag)], ?_, ?_⟩, ?_, hlast⟩
    · rw [← List.append_assoc, ← hsources]
    · have htag : List.Forall₂ IsSuffix [('!' :: tag)]
          (Option.map String.toList (some (String.ofList ('!' :: tag)))).toList := by
        rw [Option.map_some, hlist]
        exact .cons (.metadata tag) .nil
      exact List.rel_append hsuffix htag
    · intro tag' htag'
      obtain rfl := Option.some.inj htag'
      rw [hlist]
      rfl
  · rw [htake] at hsources ⊢
    refine ⟨rfl, ⟨sources, hsources, ?_⟩, ?_, hlast⟩
    · rw [suffixes]
      simpa using hsuffix
    · intro tag htag
      cases htag

/-- Suffixes that stand behind arguments which look like none are taken again. -/
theorem TakesSuffixes.takeSuffixes_append (h : TakesSuffixes i i' args args')
    (hclear : IsClear i' outs) : takeSuffixes i (outs ++ i'.suffixes) = .ok (i', outs) := by
  have hmetadata : takeMetadata (outs ++ i'.suffixes) =
      (outs ++ (i'.alignment.map alignmentText).toList, i'.metadata) := by
    rw [suffixes, ← List.append_assoc]
    cases hm : i'.metadata with
    | some tag =>
        have hhead := h.tag tag hm
        rw [Option.map_some, Option.toList_some]
        cases htag : tag.toList with
        | nil =>
            rw [htag] at hhead
            cases hhead
        | cons c rest =>
            rw [htag] at hhead
            obtain rfl := Option.some.inj hhead
            rw [takeMetadata_append, ← htag, String.ofList_toList]
    | none =>
        rw [Option.map_none, Option.toList_none, List.append_nil]
        apply takeMetadata_of_last
        intro p hp
        cases ha : i'.alignment with
        | some n =>
            rw [ha, Option.map_some, Option.toList_some, List.getLast?_concat] at hp
            obtain rfl := Option.some.inj hp
            unfold alignmentText
            rw [List.head?_append_of_ne_nil _ (by decide)]
            decide
        | none =>
            rw [ha, Option.map_none, Option.toList_none, List.append_nil] at hp
            exact hclear.metadata ha hm p hp
  have halign : takeAlignment (outs ++ (i'.alignment.map alignmentText).toList) =
      .ok (outs, i'.alignment) := by
    cases ha : i'.alignment with
    | some n => exact takeAlignment_append
    | none =>
        rw [Option.map_none, Option.toList_none, List.append_nil]
        exact takeAlignment_of_last (hclear.align ha)
  unfold takeSuffixes
  rw [hmetadata]
  dsimp only
  apply bind_eq_ok_iff.2
  refine ⟨_, halign, ?_⟩
  exact congrArg (fun j => Except.ok (j, outs)) h.eq.symm

theorem EndsInColon.of_intercalate {ps : List (List Char)} {p : List Char}
    (hp : ps.getLast? = some p) (hsolid : Solid p)
    (h : EndsInColon ([',', ' '].intercalate ps)) : EndsInColon p := by
  obtain ⟨init, rfl⟩ := List.getLast?_eq_some_iff.1 hp
  have hsplit : ∃ a, [',', ' '].intercalate (init ++ [p]) = a ++ p := by
    cases init with
    | nil => exact ⟨[], by simp⟩
    | cons q init =>
        rw [List.cons_append, intercalate_comma, List.map_append, List.flatMap_append]
        exact ⟨q ++ (init.map (' ' :: ·)).flatMap (',' :: ·) ++ [',', ' '], by simp⟩
  obtain ⟨a, ha⟩ := hsplit
  rw [ha] at h
  exact h.of_append hsolid.squeeze_ne_nil

theorem solid_of_isSuffix {sources suffixes : List (List Char)}
    (h : List.Forall₂ IsSuffix sources suffixes)
    (hs : ∀ p ∈ sources, Piece p ∧ (p = [] ∨ Solid p)) : ∀ p ∈ suffixes, Solid p ∧ Piece p := by
  induction h with
  | nil =>
      intro p hp
      cases hp
  | cons hp _ ih =>
      obtain ⟨⟨hpiece, hsolid⟩, hrest⟩ := List.forall_mem_cons.1 hs
      have hout := hp.solid (hsolid.resolve_left hp.ne_nil)
      exact List.forall_mem_cons.2 ⟨⟨hout, hp.piece hpiece⟩, ih hrest⟩

/-- Arguments that were written again, with the suffixes behind them. -/
structure RereadArguments (i i' : Instruction) (s : List Char) (outs : List (List Char)) :
    Prop where
  solid : ∀ p ∈ outs ++ i'.suffixes, Solid p
  split : splitOperands ([',', ' '].intercalate (outs ++ i'.suffixes)) = .ok (outs ++ i'.suffixes)
  take : takeSuffixes i (outs ++ i'.suffixes) = .ok (i', outs)
  keeps : Keeps s ([',', ' '].intercalate (outs ++ i'.suffixes))
  colon : EndsInColon ([',', ' '].intercalate (outs ++ i'.suffixes)) →
    EndsInColon s ∨ i'.suffixes = [] ∧ ∃ p, outs.getLast? = some p ∧ EndsInColon p

theorem TakesSuffixes.reread (h : TakesSuffixes i i' args args') (hs : splitTop? s = some args)
    (hargs : List.Forall₂ Respelled args' outs) (hclear : IsClear i' outs) :
    RereadArguments i i' s outs := by
  obtain ⟨sources, hsplit, hsuffix⟩ := h.sources
  have hsources : ∀ p ∈ sources, Piece p ∧ (p = [] ∨ Solid p) := by
    intro p hp
    have hmem : p ∈ args := by
      rw [hsplit]
      exact List.mem_append_right args' hp
    exact ⟨piece_of_mem_splitTop? hs hmem, nil_or_solid_of_mem_splitTop? hs hmem⟩
  have hsuffixes := solid_of_isSuffix hsuffix hsources
  have houts : ∀ p ∈ outs, Solid p ∧ Piece p :=
    forall_mem_of_forall₂ (hargs.imp fun _ _ hp => ⟨hp.solid, hp.piece⟩)
  have hall : ∀ p ∈ outs ++ i'.suffixes, Solid p ∧ Piece p := by
    intro p hp
    rcases List.mem_append.1 hp with hp | hp
    · exact houts p hp
    · exact hsuffixes p hp
  refine ⟨fun p hp => (hall p hp).1, Value.splitOperands_intercalate hall, h.takeSuffixes_append hclear, ?_, ?_⟩
  · apply Keeps.intercalate hs
    rw [hsplit]
    exact List.rel_append (hargs.imp fun _ _ hp => hp.keeps) (hsuffix.imp fun _ _ hp => hp.keeps)
  · intro hcolon
    rcases List.eq_nil_or_concat i'.suffixes with hnil | ⟨init, p, hconcat⟩
    · rw [hnil, List.append_nil] at hcolon
      cases hlast : outs.getLast? with
      | none =>
          rw [List.getLast?_eq_none_iff.1 hlast] at hcolon
          cases hcolon
      | some p =>
          have hp := houts p (List.mem_of_getLast? hlast)
          exact .inr ⟨hnil, p, rfl, EndsInColon.of_intercalate hlast hp.1 hcolon⟩
    · left
      have hlast : (outs ++ i'.suffixes).getLast? = some p := by
        rw [hconcat, List.concat_eq_append, ← List.append_assoc, List.getLast?_concat]
      have hp := hall p (List.mem_of_getLast? hlast)
      have hcolon' := EndsInColon.of_intercalate hlast hp.1 hcolon
      have hlast_suffix : i'.suffixes.getLast? = some p := by
        rw [hconcat, List.concat_eq_append, List.getLast?_concat]
      obtain ⟨arg, harg, his⟩ := exists_getLast?_of_forall₂ hsuffix hlast_suffix
      have hlast_arg : args.getLast? = some arg := by
        rw [hsplit, List.getLast?_append, harg]
        rfl
      exact .of_last hs hlast_arg (his.colon hcolon')

/-! ## Behind a type -/

theorem head?_intercalate {p : List Char} {ps : List (List Char)} (hp : p ≠ []) :
    ([',', ' '].intercalate (p :: ps)).head? = p.head? := by
  rw [intercalate_comma, List.head?_append_of_ne_nil _ hp]

theorem solid_intercalate (hne : outs ≠ []) (h : ∀ p ∈ outs, Solid p) :
    Solid ([',', ' '].intercalate outs) := by
  constructor
  · obtain ⟨p, ps, rfl⟩ := List.exists_cons_of_ne_nil hne
    have hp := h p List.mem_cons_self
    rw [head?_intercalate hp.ne_nil]
    exact hp.head
  · obtain ⟨init, p, rfl⟩ := (List.eq_nil_or_concat outs).resolve_left hne
    rw [List.concat_eq_append] at h ⊢
    have hp := h p (List.mem_append_right init List.mem_cons_self)
    cases init with
    | nil =>
        rw [List.nil_append, List.intercalate_singleton]
        exact hp.last
    | cons q init =>
        have hlast := hp.last
        rw [List.cons_append, intercalate_comma, List.map_append, List.flatMap_append,
          List.map_singleton, List.flatMap_singleton, List.getLast?_append, List.getLast?_append,
          List.getLast?_cons, List.getLast?_cons]
        rw [List.getLast?_eq_some_getLast hp.ne_nil] at hlast ⊢
        exact hlast

/-- Arguments that are not empty do not start with a comma. -/
theorem TakesSuffixes.head?_ne_comma (h : TakesSuffixes i i' parts args)
    (hs : splitTop? arg = some parts) (hargs : ∀ a ∈ args, a ≠ []) : arg.head? ≠ some ',' := by
  intro hcomma
  obtain ⟨sources, hsplit, hsuffix⟩ := h.sources
  have hsources : ∀ p ∈ sources, p ≠ [] :=
    forall_mem_of_forall₂ (hsuffix.flip.imp fun _ _ hp => hp.ne_nil)
  have hmem : [] ∈ parts := by
    rcases splitTop?_eq_some hs with ⟨-, hblanks⟩ | ⟨p, ps, rfl, rfl, hpieces⟩
    · exact absurd (hblanks ',' (List.mem_of_mem_head? hcomma)) (by decide)
    · cases p with
      | nil => exact List.mem_map.2 ⟨[], List.mem_cons_self, rfl⟩
      | cons c p =>
          obtain rfl := Option.some.inj hcomma
          exact absurd (hpieces _ List.mem_cons_self) not_piece_comma
  rw [hsplit] at hmem
  rcases List.mem_append.1 hmem with hmem | hmem
  · exact hargs [] hmem rfl
  · exact hsources [] hmem rfl

theorem TakesSuffixes.type_ne_nil {t : List Char} (h : TakesSuffixes i i' parts args)
    (htake : TypeToken.take s = .ok (t, arg)) (hs : splitTop? arg = some parts)
    (hargs : ∀ a ∈ args, a ≠ []) : t ≠ [] := by
  rintro rfl
  exact h.head?_ne_comma hs hargs (TypeToken.head?_of_take_nil htake)

theorem endsInColon_of_take {t : List Char} (htake : TypeToken.take s = .ok (t, arg))
    (h : EndsInColon arg) : EndsInColon s := by
  obtain ⟨gap, -, hsplit⟩ := TypeToken.exists_append_of_take htake
  rw [EndsInColon, ← squeeze_trimStart, hsplit]
  exact h.append_left

/-- A type and arguments behind it, written again. -/
structure RereadTypedArguments (i i' : Instruction) (t s : List Char)
    (outs : List (List Char)) : Prop where
  type : TypeToken.take (t ++ ' ' :: [',', ' '].intercalate (outs ++ i'.suffixes)) =
    .ok (t, [',', ' '].intercalate (outs ++ i'.suffixes))
  split : splitOperands ([',', ' '].intercalate (outs ++ i'.suffixes)) = .ok (outs ++ i'.suffixes)
  take : takeSuffixes i (outs ++ i'.suffixes) = .ok (i', outs)
  rewrites : Rewrites s (t ++ ' ' :: [',', ' '].intercalate (outs ++ i'.suffixes))

theorem TakesSuffixes.reread_behind {t : List Char} (h : TakesSuffixes i i' parts args)
    (htake : TypeToken.take s = .ok (t, arg)) (hs : splitTop? arg = some parts)
    (hargs : ∀ a ∈ args, a ≠ []) (hrespelled : List.Forall₂ Respelled args outs)
    (hclear : IsClear i' outs) (hne : outs ≠ [])
    (hparen : ∀ p, outs.head? = some p → p.head? ≠ some '(')
    (hcolon : i'.suffixes = [] → ∀ p, outs.getLast? = some p → EndsInColon p →
      EndsInColon arg) : RereadTypedArguments i i' t s outs := by
  have htoken := TypeToken.isToken_of_take htake (h.type_ne_nil htake hs hargs)
  have hreread := h.reread hs hrespelled hclear
  obtain ⟨p, ps, rfl⟩ := List.exists_cons_of_ne_nil hne
  set out := [',', ' '].intercalate (p :: ps ++ i'.suffixes) with hout
  have hsolid : Solid out := solid_intercalate (List.cons_ne_nil p _) hreread.solid
  have hhead : out.head? ≠ some '(' := by
    rw [hout, List.cons_append, head?_intercalate (hreread.solid p List.mem_cons_self).ne_nil]
    exact hparen p rfl
  refine ⟨htoken.take_space hsolid.head_all hhead, hreread.split, hreread.take, ?_⟩
  refine ⟨htoken.solid.append_space hsolid, TypeToken.keeps_of_take htake hreread.keeps, ?_⟩
  intro hend
  apply endsInColon_of_take htake
  rw [← List.singleton_append, ← List.append_assoc] at hend
  rcases hreread.colon (hend.of_append hsolid.squeeze_ne_nil) with hend | ⟨hnil, q, hq, hend⟩
  · exact hend
  · exact hcolon hnil q hq hend

/-- Inert arguments are read again behind the type, whatever they are. -/
theorem TakesSuffixes.reread_inert {t : List Char} (h : TakesSuffixes i i' parts args)
    (htake : TypeToken.take s = .ok (t, arg)) (hs : splitTop? arg = some parts)
    (hargs : ∀ a ∈ args, a ≠ []) (hrespelled : List.Forall₂ Respelled args outs)
    (hinert : ∀ p ∈ outs, Inert p) (hne : outs ≠ []) : RereadTypedArguments i i' t s outs :=
  h.reread_behind htake hs hargs hrespelled (isClear_of_inert hinert) hne
    (fun p hp => (hinert p (List.mem_of_mem_head? hp)).paren)
    fun _ p hp hcolon => absurd hcolon (hinert p (List.mem_of_getLast? hp)).colon

/-! ## Suffixes alone -/

theorem suffixText_of_nil (h : i.suffixes = []) : i.suffixText.toList = [] := by
  rw [suffixText_eq, h]
  rfl

theorem suffixText_of_ne_nil (h : i.suffixes ≠ []) :
    i.suffixText.toList = ',' :: ' ' :: [',', ' '].intercalate i.suffixes := by
  obtain ⟨p, ps, hcons⟩ := List.exists_cons_of_ne_nil h
  rw [suffixText_eq, hcons, intercalate_comma, List.flatMap_map]
  rfl

theorem splitOperands_space (h : splitOperands s = .ok parts) :
    splitOperands (' ' :: s) = .ok parts := by
  have hs := splitOperands_eq_ok_iff.1 h
  rw [← List.singleton_append, splitOperands, splitTop?_blanks_append blanks_space, hs]

/-- Suffixes with no operands in front of them, written again. -/
structure RereadSuffixes (i i' : Instruction) (s : List Char) : Prop where
  split : splitOperands ([',', ' '].intercalate i'.suffixes) = .ok i'.suffixes
  take : takeSuffixes i i'.suffixes = .ok (i', [])
  keeps : Keeps (',' :: s) i'.suffixText.toList
  colon : EndsInColon i'.suffixText.toList → EndsInColon s
  solid : i'.suffixes ≠ [] → Solid ([',', ' '].intercalate i'.suffixes)

theorem TakesSuffixes.reread_alone (h : TakesSuffixes i i' parts [])
    (hs : splitTop? s = some parts) : RereadSuffixes i i' s := by
  have hclear : IsClear i' [] := by
    constructor
    · intro _ p hp
      cases hp
    · intro _ _ p hp
      cases hp
  have hreread := h.reread hs .nil hclear
  have hsplit := hreread.split
  have htake := hreread.take
  have hkeeps := hreread.keeps
  have hcolon := hreread.colon
  have hsolid := hreread.solid
  rw [List.nil_append] at hsplit htake hkeeps hcolon hsolid
  by_cases hnil : i'.suffixes = []
  · have htext := suffixText_of_nil hnil
    refine ⟨hsplit, htake, ?_, ?_, fun hne => absurd hnil hne⟩
    · obtain ⟨sources, hsources, hsuffix⟩ := h.sources
      rw [hnil] at hsuffix
      cases hsuffix
      rw [List.append_nil] at hsources
      rw [hsources] at hs
      rcases splitTop?_eq_some hs with ⟨-, hblanks⟩ | ⟨p, ps, hcons, -⟩
      · rw [htext]
        have hquote : '"' ∉ ',' :: s := by
          rw [List.mem_cons, not_or]
          exact ⟨by decide, hblanks.not_mem_quote⟩
        exact .of_plain hquote (by decide)
      · cases hcons
    · intro hend
      rw [htext] at hend
      cases hend
  · have htext := suffixText_of_ne_nil hnil
    have hlist := solid_intercalate hnil hsolid
    refine ⟨hsplit, htake, ?_, ?_, fun _ => hlist⟩
    · rw [htext]
      exact .cons ',' (Keeps.space.append hkeeps)
    · intro hend
      rw [htext] at hend
      have hend' := EndsInColon.of_append (a := [',', ' ']) hend hlist.squeeze_ne_nil
      rcases hcolon hend' with hend' | ⟨-, p, hp, -⟩
      · exact hend'
      · cases hp

end SsaIr.Instruction
