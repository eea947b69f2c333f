import SsaIr.Proofs.Instruction.RoundTrip

/-!
# Copies made for a phi are read

A copy has no line of its own. All its parts come from the line of the phi, so what protects
that line from being read otherwise protects the copy as well.
-/

namespace SsaIr.Instruction

open Text

variable {scope : List String} {i : Instruction} {rest s : List Char} {op : Opcode}
  {type label : String} {v : Value} {arg code : List Char}

/-- The value alone may take the place of its pair. -/
theorem keeps_of_parseIncoming (h : parseIncoming scope type arg = .ok (v, label))
    (hv : v.isRegular = true) : Keeps arg v.text.toList := by
  obtain ⟨inside, value, name, rfl, hparts, -, hparse⟩ := parseIncoming_eq_ok_iff.1 h
  have hinside : Keeps ('[' :: (inside ++ [']'])) inside :=
    (Keeps.drop_left (a := ['[']) rfl).trans (.drop_right rfl)
  have hvalue : Keeps inside value :=
    .of_mem_splitTop? (splitOperands_eq_ok_iff.1 hparts) List.mem_cons_self
  exact hinside.trans (hvalue.trans (Value.reread_of_parse hparse hv).keeps)

/-- A value alone is an argument without suffixes. -/
theorem takeSuffixes_value {j : Instruction} (hj : j.suffixes = [])
    (h : RereadShared scope type arg s v) : takeSuffixes j [s] = .ok (j, [s]) := by
  have hmetadata : takeMetadata [s] = ([s], none) := by
    apply takeMetadata_of_last
    intro p hp
    obtain rfl := Option.some.inj hp
    exact h.metadata
  have halign : takeAlignment [s] = .ok ([s], none) := by
    apply takeAlignment_of_last
    intro p hp
    obtain rfl := Option.some.inj hp
    exact h.align
  obtain ⟨hnone, hnone'⟩ := suffixes_eq_nil_iff.1 hj
  rw [takeSuffixes, hmetadata]
  apply bind_eq_ok_iff.2
  refine ⟨_, halign, ?_⟩
  dsimp only
  rw [← hnone, ← hnone']
  rfl

/-- The type of a phi and one of its values take the place of what the phi was read from. -/
theorem value_of_parsePhi {i' : Instruction} (h : parsePhi scope i rest = .ok i')
    (hmem : (v, label) ∈ i'.incoming) (hv : v.isRegular = true) (hplain : v.isPlain = true) :
    ∃ type, i'.type = some type ∧ Rewrites rest (type.toList ++ ' ' :: v.text.toList) ∧
      parseShared scope { opcode := .copy } (type.toList ++ ' ' :: v.text.toList) =
        .ok { opcode := .copy, type := some type, operands := [v] } := by
  obtain ⟨t, args, parts, i₁, args', htake, hparts, hsuffixes, hincoming, -, hi⟩ :=
    parsePhi_eq_ok_iff.1 h
  have hs := splitOperands_eq_ok_iff.1 hparts
  have htakes := takesSuffixes_of_eq_ok hsuffixes
  have hargs : ∀ a ∈ args', a ≠ [] :=
    forall_mem_of_forall₂ (hincoming.flip.imp fun _ _ hparse => ne_nil_of_parseIncoming hparse)
  have htype : i'.type = some (String.ofList t) := by rw [hi, htakes.eq]
  have htoken := TypeToken.isToken_of_take htake (htakes.type_ne_nil htake hs hargs)
  obtain ⟨arg, harg, hpair⟩ := exists_of_mem_result (mapM_eq_ok_iff.2 hincoming) hmem
  obtain ⟨inside, value, name, -, -, -, hvalue⟩ := parseIncoming_eq_ok_iff.1 hpair
  have hshared := rereadShared_plain hvalue hv hplain
  have hkeeps : Keeps args v.text.toList := by
    obtain ⟨sources, rfl, -⟩ := htakes.sources
    have hpart := Keeps.of_mem_splitTop? hs (List.mem_append_left sources harg)
    exact hpart.trans (keeps_of_parseIncoming hpair hv)
  refine ⟨String.ofList t, htype, ?_, ?_⟩
  · rw [String.toList_ofList]
    refine ⟨htoken.solid.append_space hshared.solid, TypeToken.keeps_of_take htake hkeeps, ?_⟩
    intro hend
    rw [← List.singleton_append, ← List.append_assoc] at hend
    exact absurd (hend.of_append hshared.solid.squeeze_ne_nil) hshared.colon
  · rw [String.toList_ofList]
    apply parseShared_eq_ok_iff.2
    refine ⟨t, v.text.toList, [v.text.toList], _, [v.text.toList],
      htoken.take_space hshared.solid.head_all hshared.paren, ?_,
      takeSuffixes_value rfl hshared, .cons hshared.parse .nil, rfl⟩
    have hsingle : splitOperands ([',', ' '].intercalate [v.text.toList]) = .ok [v.text.toList] :=
      Value.splitOperands_intercalate (by simpa using ⟨hshared.solid, hshared.piece⟩)
    rwa [List.intercalate_singleton] at hsingle

/-- What follows a word that protects nothing may stand without it. -/
theorem keeps_of_nextToken {w : List Char} (h : nextToken s = (w, rest)) (hw : Plain w) :
    Keeps s rest := by
  obtain ⟨a, g, ha, hg, hs⟩ := exists_nextToken s
  rw [h] at hs
  rw [hs]
  apply Keeps.drop_left
  apply quotedAfter_of_not_mem
  simp only [List.mem_append, not_or]
  exact ⟨⟨ha.not_mem_quote, hw.not_mem_quote⟩, hg.not_mem_quote⟩

theorem colon_of_nextToken {w : List Char} (h : nextToken s = (w, rest))
    (hend : EndsInColon rest) : EndsInColon s := by
  have hrest : (nextToken s).2 = rest := congrArg Prod.snd h
  apply endsInColon_of_nextToken
  rwa [hrest]

/-- Another opcode may take the place of the words up to the opcode. -/
theorem Opens.rewrites {tail : Bool} {x : List Char} (h : Opens s tail op rest)
    (hrewrites : Rewrites rest x) (op' : Opcode) :
    Rewrites s (openingText false op' ++ ' ' :: x) := by
  have hrest : Keeps s rest ∧ (EndsInColon rest → EndsInColon s) := by
    obtain ⟨-, -, hplain⟩ := unbroken_keyword op
    cases tail with
    | false => exact ⟨keeps_of_nextToken h hplain, colon_of_nextToken h⟩
    | true =>
        have hword : nextToken s = ("tail".toList, (nextToken s).2) := Prod.ext h.1 rfl
        exact ⟨(keeps_of_nextToken hword (by decide)).trans (keeps_of_nextToken h.2 hplain),
          fun hend => colon_of_nextToken hword (colon_of_nextToken h.2 hend)⟩
  obtain ⟨hunbroken, hne, hplain⟩ := unbroken_keyword op'
  refine ⟨(Solid.of_unbroken hunbroken hne).append_space hrewrites.solid, ?_, ?_⟩
  · have hword : Keeps [] (op'.keyword.toList ++ [' ']) :=
      .of_plain List.not_mem_nil (hplain.append (by decide))
    have hkeeps := hword.append (hrest.1.trans hrewrites.keeps)
    rwa [List.append_assoc] at hkeeps
  · intro hend
    rw [← List.singleton_append, ← List.append_assoc] at hend
    exact hrest.2 (hrewrites.colon (hend.of_append hrewrites.solid.squeeze_ne_nil))

theorem toList_text_copy (name type : String) (v : Value) :
    (copy name (some type) v).text.toList = '%' :: (name.toList ++ [' ', '=', ' '] ++
      (openingText false .copy ++ ' ' :: (type.toList ++ ' ' :: v.text.toList))) := by
  simp [copy, text, resultText, body, suffixText, bareList, openingText, wordIf, Opcode.keyword]

/-- A copy made for a phi may stand on a line like that of the phi, and is read from there. -/
theorem copy_reread {phi : Instruction} {name : String} (h : parse scope code = .ok phi)
    (hphi : phi.opcode = .phi) (hname : phi.result = some name)
    (hmem : (v, label) ∈ phi.incoming) (hv : v.isRegular = true) (hplain : v.isPlain = true) :
    Rewrites code (copy name phi.type v).text.toList ∧
      parse scope (copy name phi.type v).text.toList = .ok (copy name phi.type v) := by
  obtain ⟨result, s, tail, op, rest, i, hresult, hopens, hparse, rfl⟩ := parse_eq_ok_iff.1 h
  obtain ⟨-, hop, -, -⟩ := isFresh_parseRest hparse
  obtain rfl : op = .phi := hop.symm.trans hphi
  obtain rfl : result = some name := hname
  obtain ⟨type, htype, hrewrites, hshared⟩ := value_of_parsePhi hparse hmem hv hplain
  have hopening := hopens.rewrites hrewrites .copy
  have hopens' : Opens (openingText false .copy ++ ' ' :: (type.toList ++ ' ' :: v.text.toList))
      false .copy (type.toList ++ ' ' :: v.text.toList) :=
    nextToken_space (by decide) (by decide) hrewrites.solid.head_all
  have hrest : parseRest scope .copy (type.toList ++ ' ' :: v.text.toList) =
      .ok { opcode := .copy, type := some type, operands := [v] } :=
    bind_eq_ok_iff.2 ⟨_, hshared, expectOperands_eq_ok_iff.2 ⟨rfl, rfl⟩⟩
  rcases splitResult_cases hresult with ⟨-, hnone, -⟩ | ⟨front, after, n, rfl, hfront, hident, hn, rfl⟩
  · cases hnone
  · obtain rfl := Option.some.inj hn
    have htype' : ({ i with result := some name, tail } : Instruction).type = some type := htype
    rw [htype', toList_text_copy]
    refine ⟨result_reread hfront hident hopening,
      parse_eq_ok_iff.2 ⟨some name, _, false, .copy, _, _, ?_, hopens', hrest, rfl⟩⟩
    exact splitResult_some hident hopening.solid

end SsaIr.Instruction
