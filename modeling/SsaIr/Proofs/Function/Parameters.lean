import SsaIr.Function.Parser
import SsaIr.Function.Printer
import SsaIr.Proofs.Value.RoundTrip

/-!
# Lists of parameters are read back

A parameter is its type with words behind it. Parameters are written in the order they were read,
and however many ellipses stand behind them, one is written.
-/

namespace SsaIr

open Text

variable {s t rest : List Char} {ws parts : List (List Char)}

theorem ParameterAttribute.keyword_of_ofKeyword? {word : String} {a : ParameterAttribute}
    (h : ofKeyword? word = some a) : a.keyword = word := by
  simpa using List.find?_some h

theorem ParameterAttribute.ofKeyword?_keyword (a : ParameterAttribute) :
    ofKeyword? a.keyword = some a := by
  cases a
  rfl

namespace Parameter

variable {p p' : Parameter} {requireName : Bool}

/-- The words behind the type. -/
def behindType (p : Parameter) : List (List Char) :=
  p.attributes.map (·.keyword.toList) ++ (p.name.map fun name => '%' :: name.toList).toList

theorem toList_text (p : Parameter) :
    p.text.toList = p.type.toList ++ p.behindType.flatMap (' ' :: ·) := by
  rw [text, behindType, String.toList_append, String.toList_append, String.toList_join]
  cases p.name <;> simp [List.flatMap_map]

theorem addWord_eq_ok {word : List Char} (h : p.addWord word = .ok p') :
    p'.type = p.type ∧ p.name = none ∧ p'.behindType = p.behindType ++ [word] ∧
      ∀ name ∈ p'.name, isIdentifier name.toList = true := by
  unfold addWord at h
  split at h
  · cases h
  · next hname =>
      have hname : p.name = none := by simpa using hname
      split at h
      · split at h
        · next name hsigil =>
            obtain ⟨hword, hident⟩ := sigilName?_eq_some hsigil
            obtain rfl := Except.ok.inj h
            refine ⟨rfl, hname, ?_, ?_⟩
            · rw [behindType, behindType, hname, hword]
              simp
            · rintro _ ⟨⟩
              exact hident
        · cases h
      · split at h
        · next a ha =>
            have hkeyword := congrArg String.toList (ParameterAttribute.keyword_of_ofKeyword? ha)
            rw [String.toList_ofList] at hkeyword
            obtain rfl := Except.ok.inj h
            refine ⟨rfl, hname, ?_, ?_⟩
            · rw [behindType, behindType, hname, ← hkeyword]
              simp
            · intro name hmem
              rw [hname] at hmem
              cases hmem
        · cases h

/-- The words that are written are those that were read. -/
theorem behindType_of_foldlM (h : ws.foldlM addWord p = .ok p')
    (hp : ∀ name ∈ p.name, isIdentifier name.toList = true) :
    p'.type = p.type ∧ p'.behindType = p.behindType ++ ws ∧
      ∀ name ∈ p'.name, isIdentifier name.toList = true := by
  induction ws generalizing p with
  | nil =>
      obtain rfl := Except.ok.inj h
      exact ⟨rfl, (List.append_nil _).symm, hp⟩
  | cons w ws ih =>
      rw [List.foldlM_cons] at h
      obtain ⟨q, hq, h⟩ := bind_eq_ok_iff.1 h
      obtain ⟨htype, -, hwords, hident⟩ := addWord_eq_ok hq
      obtain ⟨htype', hwords', hident'⟩ := ih h hident
      refine ⟨htype'.trans htype, ?_, hident'⟩
      rw [hwords', hwords, List.append_assoc, List.singleton_append]

theorem parse_eq_ok_iff : parse requireName s = .ok p ↔ ∃ type rest,
    TypeToken.take s = .ok (type, rest) ∧
      (words rest).foldlM addWord { type := String.ofList type } = .ok p ∧
        ¬(requireName = true ∧ p.name = none) := by
  unfold parse
  rw [bind_eq_ok_iff, Prod.exists]
  refine exists_congr fun type => exists_congr fun rest => and_congr_right fun _ => ?_
  dsimp only
  rw [bind_eq_ok_iff]
  constructor
  · rintro ⟨q, hq, h⟩
    split at h
    · cases h
    · next hname =>
        cases h
        exact ⟨hq, hname⟩
  · rintro ⟨hq, hname⟩
    refine ⟨p, hq, ?_⟩
    rw [if_neg hname]
    rfl

theorem isWord_behindType {w : List Char} (hp : ∀ name ∈ p.name, isIdentifier name.toList = true)
    (hw : w ∈ p.behindType) : Value.IsWord w := by
  rcases List.mem_append.1 hw with hw | hw
  · obtain ⟨a, -, rfl⟩ := List.mem_map.1 hw
    cases a
    exact Value.isWord_of_isIdentifier (by decide)
  · obtain ⟨name, hname, rfl⟩ := Option.map_eq_some_iff.1 (Option.mem_toList.1 hw)
    exact Value.isWord_cons (.inl rfl) (hp name hname)

/-- A parameter that was read from a part of the list and is read again from what is written. -/
structure RereadPart (requireName : Bool) (s : List Char) (p : Parameter) : Prop
    extends Respelled s p.text.toList where
  parse : parse requireName p.text.toList = .ok p
  ne_ellipsis : p.text.toList ≠ "...".toList

/-- A token with words behind it is taken from in front of them, whatever they are. -/
theorem take_words {type : List Char} (ht : TypeToken.IsToken type)
    (hws : ∀ w ∈ ws, Value.IsWord w) :
    TypeToken.take (type ++ ws.flatMap (' ' :: ·)) =
      .ok (type, trimStart (ws.flatMap (' ' :: ·))) := by
  apply ht.take
  · intro c hc
    cases ws with
    | nil => cases hc
    | cons w ws =>
        obtain rfl := Option.some.inj hc
        rfl
  · rw [head?_trimStart_words fun w hw => ⟨(hws w hw).unbroken, (hws w hw).ne_nil⟩]
    intro hparen
    obtain ⟨w, hw, hhead⟩ := Option.bind_eq_some_iff.1 hparen
    exact (hws w (List.mem_of_mem_head? hw)).not_mem rfl (by decide) (by decide)
      (List.mem_of_mem_head? hhead)

/-- What is written for a parameter is an ellipsis only if one was read. -/
theorem ne_ellipsis_of_take {type : List Char} (hs : Solid s) (hne : s ≠ "...".toList)
    (htake : TypeToken.take s = .ok (type, rest)) (ht : Solid type) :
    type ++ (words rest).flatMap (' ' :: ·) ≠ "...".toList := by
  intro heq
  obtain ⟨gap, hgap, hsplit⟩ := TypeToken.exists_append_of_take htake
  rw [hs.trimStart_eq] at hsplit
  cases hws : words rest with
  | nil =>
      have hblanks : Blanks (gap ++ rest) := Blanks.append hgap (blanks_of_words_eq_nil hws)
      rw [hws, List.flatMap_nil, List.append_nil] at heq
      apply hne
      calc
        s = trim s := hs.trim_eq.symm
        _ = trim (type ++ (gap ++ rest)) := by rw [hsplit]; simp
        _ = trim type := trim_append_blanks hblanks
        _ = "...".toList := by rw [ht.trim_eq, heq]
  | cons w ws =>
      have hspace : ' ' ∈ "...".toList := by
        rw [← heq, hws]
        simp
      exact absurd hspace (by decide)

theorem rereadPart (hs : Solid s) (hpiece : Piece s) (hne : s ≠ "...".toList)
    (h : parse requireName s = .ok p) : RereadPart requireName s p := by
  obtain ⟨type, rest, htake, hwords, hname⟩ := parse_eq_ok_iff.1 h
  obtain ⟨htype, hbehind, hident⟩ := behindType_of_foldlM hwords (by simp)
  have hbehind : p.behindType = words rest := hbehind
  have htext : p.text.toList = type ++ (words rest).flatMap (' ' :: ·) := by
    rw [toList_text, hbehind, htype, String.toList_ofList]
  have hword : ∀ w ∈ words rest, Value.IsWord w := by
    rw [← hbehind]
    exact fun w hw => isWord_behindType hident hw
  have hunbroken : ∀ w ∈ words rest, Unbroken w ∧ w ≠ [] := fun w hw =>
    ⟨(hword w hw).unbroken, (hword w hw).ne_nil⟩
  have htoken := TypeToken.isToken_of_take htake (TypeToken.ne_nil_of_piece htake hpiece)
  have hrest : Piece rest := piece_of_words fun w hw => (hword w hw).piece
  have hrest' : Piece ((words rest).flatMap (' ' :: ·)) := by
    rw [← piece_squeeze, squeeze_flatMap_space, piece_squeeze]
    exact hrest
  have hkeeps : Keeps s (type ++ (words rest).flatMap (' ' :: ·)) := by
    obtain ⟨gap, hgap, hsplit⟩ := TypeToken.exists_append_of_take htake
    rw [hs.trimStart_eq] at hsplit
    rw [hsplit, List.append_assoc]
    exact (Keeps.refl type).append ((Keeps.blanks_append hgap).trans (Keeps.words rest))
  constructor
  · rw [htext]
    exact ⟨htoken.solid.append_words hunbroken, hpiece,
      (TypeToken.piece_of_take htake hpiece hrest.balanced).append hrest', hkeeps⟩
  · rw [htext]
    refine parse_eq_ok_iff.2 ⟨type, _, take_words htoken hword, ?_, hname⟩
    rwa [words_trimStart, words_flatMap hunbroken]
  · rw [htext]
    exact ne_ellipsis_of_take hs hne htake htoken.solid

end Parameter

namespace Function

variable {f f' : Function} {malformed : String → ParseError} {outs front back : List (List Char)}
  {ps : List Parameter}

/-! ## The list of parameters -/

/-- The parameters as they are written. -/
def parameterTexts (f : Function) : List (List Char) :=
  f.parameters.map (·.text.toList) ++ if f.isVariadic then ["...".toList] else []

theorem addParameter_ellipsis : addParameter malformed f "...".toList =
    .ok { f with isVariadic := true } := if_pos rfl

theorem addParameter_of_ne {d : Bool} (hne : s ≠ "...".toList) (hf : f.isVariadic = false)
    (hd : f.isDeclaration = d) : addParameter malformed f s =
      (Parameter.parse (!d) s).map fun p => { f with parameters := f.parameters ++ [p] } := by
  rw [addParameter, if_neg hne, if_neg (by simp [hf]), hd]

/-- Behind an ellipsis, only further ones are read. -/
theorem foldlM_ellipses_eq_ok_iff (hf : f.isVariadic = true) :
    parts.foldlM (addParameter malformed) f = .ok f' ↔ (∀ s ∈ parts, s = "...".toList) ∧ f' = f := by
  induction parts with
  | nil => simp [eq_comm, pure, Except.pure]
  | cons s parts ih =>
      rw [List.foldlM_cons, List.forall_mem_cons, bind_eq_ok_iff]
      by_cases hs : s = "...".toList
      · have hsame : { f with isVariadic := true } = f := by rw [← hf]
        rw [hs, addParameter_ellipsis, hsame]
        simp only [Except.ok.injEq, exists_eq_left', ih, true_and]
      · rw [addParameter, if_neg hs, hf, if_pos rfl]
        refine iff_of_false ?_ fun hall => hs hall.1.1
        rintro ⟨g, hg, -⟩
        cases hg

/-- Parameters are read one by one, and behind them only ellipses. -/
theorem foldlM_addParameter_eq_ok_iff {d : Bool} (hf : f.isVariadic = false)
    (hd : f.isDeclaration = d) : parts.foldlM (addParameter malformed) f = .ok f' ↔
      ∃ front back ps, parts = front ++ back ∧ (∀ s ∈ back, s = "...".toList) ∧
        List.Forall₂ (fun s p => s ≠ "...".toList ∧ Parameter.parse (!d) s = .ok p) front ps ∧
        f' = { f with parameters := f.parameters ++ ps, isVariadic := !back.isEmpty } := by
  constructor
  · intro h
    induction parts generalizing f with
    | nil =>
        obtain rfl := Except.ok.inj h
        refine ⟨[], [], [], rfl, by simp, .nil, ?_⟩
        rw [List.append_nil, List.isEmpty_nil, Bool.not_true, ← hf]
    | cons s parts ih =>
        rw [List.foldlM_cons] at h
        obtain ⟨g, hg, hrest⟩ := bind_eq_ok_iff.1 h
        by_cases hs : s = "...".toList
        · rw [hs, addParameter_ellipsis] at hg
          obtain rfl := Except.ok.inj hg
          obtain ⟨hall, rfl⟩ := (foldlM_ellipses_eq_ok_iff rfl).1 hrest
          refine ⟨[], s :: parts, [], rfl, List.forall_mem_cons.2 ⟨hs, hall⟩, .nil, ?_⟩
          rw [List.append_nil]
          rfl
        · rw [addParameter_of_ne hs hf hd] at hg
          obtain ⟨p, hp, rfl⟩ := map_eq_ok_iff.1 hg
          obtain ⟨front, back, ps, rfl, hback, hfront, rfl⟩ :=
            ih (f := { f with parameters := f.parameters ++ [p] }) hf hd hrest
          refine ⟨s :: front, back, p :: ps, rfl, hback, .cons ⟨hs, hp⟩ hfront, ?_⟩
          rw [List.append_assoc, List.singleton_append]
  · rintro ⟨front, back, ps, rfl, hback, hfront, rfl⟩
    induction hfront generalizing f with
    | nil =>
        cases back with
        | nil =>
            change Except.ok f = _
            rw [List.append_nil, List.isEmpty_nil, Bool.not_true, ← hf]
        | cons s back =>
            obtain ⟨rfl, hback'⟩ := List.forall_mem_cons.1 hback
            rw [List.nil_append, List.foldlM_cons, addParameter_ellipsis]
            refine (foldlM_ellipses_eq_ok_iff rfl).2 ⟨hback', ?_⟩
            rw [List.append_nil]
            rfl
    | @cons s p front ps hp _ ih =>
        rw [List.cons_append, List.foldlM_cons, addParameter_of_ne hp.1 hf hd, hp.2]
        refine (ih (f := { f with parameters := f.parameters ++ [p] }) hf hd).trans ?_
        rw [List.append_assoc, List.singleton_append]

/-- The one ellipsis that is written, if any was read. -/
def ellipses (back : List (List Char)) : List (List Char) :=
  if !back.isEmpty then ["...".toList] else []

theorem eq_of_mem_ellipses (ht : t ∈ ellipses back) : t = "...".toList := by
  unfold ellipses at ht
  split at ht
  · exact List.mem_singleton.1 ht
  · cases ht

/-- Ellipses behind the first are left out. -/
theorem keeps_ellipses (hback : ∀ t ∈ back, t = "...".toList)
    (h : Keeps s ([',', ' '].intercalate (outs ++ back))) :
    Keeps s ([',', ' '].intercalate (outs ++ ellipses back)) := by
  cases back with
  | nil => exact h
  | cons t back =>
      obtain ⟨ht, hback⟩ := List.forall_mem_cons.1 hback
      rw [List.append_cons, intercalate_comma_append (by simp), ht] at h
      have hquotes : '"' ∉ back.flatMap ([',', ' '] ++ ·) := by
        intro hmem
        obtain ⟨u, hu, hmem⟩ := List.mem_flatMap.1 hmem
        rw [hback u hu] at hmem
        exact absurd hmem (by decide)
      exact h.trans (.drop_right (quotedAfter_of_not_mem hquotes))

/-- The list of parameters is read again from what is written between the parentheses. -/
theorem parameters_reread (hs : splitTop? s = some parts)
    (h : parts.foldlM (addParameter malformed) f = .ok f') (hf : f.isVariadic = false)
    (hnone : f.parameters = []) :
    Balanced ([',', ' '].intercalate f'.parameterTexts) ∧
      Keeps s ([',', ' '].intercalate f'.parameterTexts) ∧
        splitOperands ([',', ' '].intercalate f'.parameterTexts) = .ok f'.parameterTexts ∧
          ∀ malformed' : String → ParseError,
            f'.parameterTexts.foldlM (addParameter malformed') f = .ok f' := by
  obtain ⟨front, back, ps, rfl, hback, hfront, rfl⟩ := (foldlM_addParameter_eq_ok_iff hf rfl).1 h
  have hreread : List.Forall₂ (Parameter.RereadPart (!f.isDeclaration)) front ps := by
    refine forall₂_imp_of_mem hfront fun s p hmem _ hp => ?_
    have hpart : s ∈ front ++ back := List.mem_append_left _ hmem
    refine Parameter.rereadPart ?_ (piece_of_mem_splitTop? hs hpart) hp.1 hp.2
    rcases nil_or_solid_of_mem_splitTop? hs hpart with rfl | hsolid
    · cases hp.2
    · exact hsolid
  have htexts : ({ f with parameters := f.parameters ++ ps, isVariadic := !back.isEmpty } :
      Function).parameterTexts = ps.map (·.text.toList) ++ ellipses back := by
    rw [parameterTexts, hnone]
    rfl
  have hparams : ∀ p ∈ ps, ∃ t, Parameter.RereadPart (!f.isDeclaration) t p :=
    forall_mem_of_forall₂ (hreread.imp fun t _ hr => ⟨t, hr⟩)
  have hpieces : ∀ t ∈ ps.map (·.text.toList) ++ ellipses back, Solid t ∧ Piece t := by
    intro t ht
    rcases List.mem_append.1 ht with ht | ht
    · obtain ⟨p, hp, rfl⟩ := List.mem_map.1 ht
      obtain ⟨_, hr⟩ := hparams p hp
      exact ⟨hr.solid, hr.piece⟩
    · rw [eq_of_mem_ellipses ht]
      exact ⟨⟨rfl, rfl⟩, by decide⟩
  have hkeeps : Keeps s ([',', ' '].intercalate (ps.map (·.text.toList) ++ back)) := by
    apply Keeps.intercalate hs
    apply List.rel_append
    · exact List.forall₂_map_right_iff.2 (hreread.imp fun _ _ hr => hr.keeps)
    · exact List.forall₂_same.2 fun t _ => .refl t
  rw [htexts]
  refine ⟨balanced_intercalate fun t ht => (hpieces t ht).2, keeps_ellipses hback hkeeps,
    Value.splitOperands_intercalate hpieces, fun malformed' => ?_⟩
  refine (foldlM_addParameter_eq_ok_iff hf rfl).2
    ⟨_, _, ps, rfl, fun _ => eq_of_mem_ellipses, ?_, ?_⟩
  · refine List.forall₂_map_left_iff.2 (List.forall₂_same.2 fun p hp => ?_)
    obtain ⟨_, hr⟩ := hparams p hp
    exact ⟨hr.ne_ellipsis, hr.parse⟩
  · cases back <;> rfl

end Function

end SsaIr
