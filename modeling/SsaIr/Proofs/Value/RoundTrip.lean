import SsaIr.Proofs.Except
import SsaIr.Proofs.Value.Form

/-!
# Values are read back

A regular value that was read from a text is read again from the text it is written as, bare
behind its type and behind a type of its own. The proof is by induction on the length of the text
it was read from, since an operation on constants has operands of its own.
-/

namespace SsaIr

open Text

namespace Value

variable {scope : List String} {type : String} {s r out w : List Char} {v : Value}

/-- What may stand behind the type of a typed operand, whatever the type. -/
def isCompact (r : List Char) : Bool :=
  (after? ['c', '"'] r).isSome || (constantExpression? r).isSome || (nextToken r).2.isEmpty

/-- A value of the given type that is read from its own text, behind its type and bare. -/
structure Reparses (scope : List String) (type : String) (v : Value) : Prop where
  solid : Solid v.text.toList
  type_eq : v.isPlain = true → v.type = type
  parse : ∀ type', (v.isPlain = true → type' = type) →
    (v.isLabel = true → type' = TypeToken.label) → parse scope v.text.toList type' = .ok v
  paren : v.text.toList.head? ≠ some '('
  compact : v.isMetadata = false → isCompact v.text.toList = true
  metadata : v.text.toList.head? = some '!' ↔ v.isMetadata = true

/-- A value that was read from a text with the given type, written again as a bare operand. -/
structure Reread (scope : List String) (type : String) (s : List Char) (v : Value) : Prop
    extends Respelled s v.text.toList where
  type_eq : v.isPlain = true → v.type = type
  parse : ∀ type', (v.isPlain = true → type' = type) →
    (v.isLabel = true → type' = TypeToken.label) → parse scope v.text.toList type' = .ok v
  paren : v.text.toList.head? ≠ some '('
  align : after? "align ".toList v.text.toList = none
  compact : v.isMetadata = false → isCompact v.text.toList = true
  metadata : v.text.toList.head? = some '!' ↔ v.isMetadata = true
  colon : v.isMetadata = false → v.text.toList.getLast? ≠ some ':'

theorem parse_of_form {v : Value} (h : form scope s type = .ok (.value v)) :
    parse scope s type = .ok v := by rw [parse_eq, h]

/-- An identifier, with or without a sigil in front. -/
structure IsWord (s : List Char) : Prop where
  ne_nil : s ≠ []
  chars : ∀ c ∈ s, isIdentifierChar c = true ∨ c = '%' ∨ c = '@'

theorem isWord_of_isIdentifier (h : isIdentifier s = true) : IsWord s :=
  ⟨ne_nil_of_isIdentifier h, fun _ hc => .inl (mem_of_isIdentifier h hc)⟩

theorem isWord_cons {c : Char} (hc : c = '%' ∨ c = '@') (h : isIdentifier s = true) :
    IsWord (c :: s) := by
  refine ⟨List.cons_ne_nil c s, ?_⟩
  intro d hd
  rcases List.mem_cons.1 hd with rfl | hd
  · exact .inr hc
  · exact .inl (mem_of_isIdentifier h hd)

namespace IsWord

theorem not_mem {c : Char} (h : IsWord s) (hc : isIdentifierChar c = false) (hpercent : c ≠ '%')
    (hat : c ≠ '@') : c ∉ s := by
  intro hs
  rcases h.chars c hs with hident | rfl | rfl
  · rw [hc] at hident
    cases hident
  · exact hpercent rfl
  · exact hat rfl

theorem unbroken (h : IsWord s) : Unbroken s := by
  intro c hc
  rcases h.chars c hc with hident | rfl | rfl
  · exact isBlank_of_isIdentifierChar hident
  · rfl
  · rfl

theorem piece (h : IsWord s) : Piece s := by
  apply piece_of_neutral
  intro c hc
  have hcomma : c ≠ ',' := by
    rintro rfl
    exact h.not_mem rfl (by decide) (by decide) hc
  refine ⟨?_, hcomma⟩
  rcases h.chars c hc with hident | rfl | rfl
  · exact neutral_of_isIdentifierChar hident
  · exact ⟨by decide, rfl, rfl⟩
  · exact ⟨by decide, rfl, rfl⟩

theorem plain (h : IsWord s) : Plain s := by
  intro c hc
  refine ⟨?_, ?_, ?_⟩ <;>
  · rintro rfl
    exact h.not_mem rfl (by decide) (by decide) hc

theorem respelled (h : IsWord out) (hs : Piece s) (hquote : '"' ∉ s) : Respelled s out :=
  ⟨.of_unbroken h.unbroken h.ne_nil, hs, h.piece, .of_plain hquote h.plain⟩

end IsWord

/-- Values that are written as one word. -/
theorem Reparses.of_isWord (h : IsWord v.text.toList) (hmetadata : v.isMetadata = false)
    (htype : v.isPlain = true → v.type = type)
    (hparse : ∀ type', (v.isPlain = true → type' = type) →
      (v.isLabel = true → type' = TypeToken.label) →
      form scope v.text.toList type' = .ok (.value v)) :
    Reparses scope type v where
  solid := .of_unbroken h.unbroken h.ne_nil
  type_eq := htype
  parse := fun type' hplain hlabel => parse_of_form (hparse type' hplain hlabel)
  paren := fun hhead =>
    h.not_mem (c := '(') rfl (by decide) (by decide) (List.mem_of_mem_head? hhead)
  compact := fun _ => by
    rw [isCompact, nextToken_self h.unbroken h.ne_nil]
    simp
  metadata := by
    rw [hmetadata]
    refine iff_of_false (fun hhead => ?_) Bool.false_ne_true
    exact h.not_mem (c := '!') rfl (by decide) (by decide) (List.mem_of_mem_head? hhead)

theorem Reparses.reread_of_isWord (h : Reparses scope type v) (hword : IsWord v.text.toList)
    (hs : Piece s) (hquote : '"' ∉ s) : Reread scope type s v :=
  { h with
    toRespelled := hword.respelled hs hquote
    align := after?_of_unbroken hword.unbroken (by decide)
    colon := fun _ hlast =>
      hword.not_mem (c := ':') rfl (by decide) (by decide) (List.mem_of_getLast? hlast) }

theorem text_label (n : String) : (label n).text.toList = '%' :: n.toList := by
  rw [text, String.toList_append]
  rfl

theorem text_ofLocalName (n : String) :
    (ofLocalName scope n type).text.toList = '%' :: n.toList := by
  unfold ofLocalName
  split
  · exact text_label n
  · split <;>
    · rw [text, String.toList_append]
      rfl

theorem text_global (n : String) : (global n type).text.toList = '@' :: n.toList := by
  rw [text, String.toList_append]
  rfl

theorem isQuotation_eq_true_iff :
    isQuotation s = true ↔ ∃ body, s = 'c' :: ('"' :: body ++ ['"']) ∧ '"' ∉ body := by
  constructor
  · intro h
    obtain ⟨body, hbody, hquote⟩ := (Option.any_eq_true _ _).1 h
    obtain ⟨rest, hrest, hbefore⟩ := Option.bind_eq_some_iff.1 hbody
    refine ⟨body, ?_, by simpa using hquote⟩
    rw [after?_eq_some_iff.1 hrest, before?_eq_some_iff.1 hbefore]
    rfl
  · rintro ⟨body, rfl, hquote⟩
    have hbefore : before? ['"'] (body ++ ['"']) = some body := before?_eq_some_iff.2 rfl
    change (before? ['"'] (body ++ ['"'])).any _ = true
    rw [hbefore]
    simpa using hquote

theorem isMetadata_ofLocalName (n : String) : (ofLocalName scope n type).isMetadata = false := by
  unfold ofLocalName
  split
  · rfl
  · split <;> rfl

theorem type_ofLocalName (n : String) : (ofLocalName scope n type).type = type := by
  unfold ofLocalName
  split
  · next htype => exact htype.symm
  · split <;> rfl

theorem ofLocalName_ofLocalName {n type' : String}
    (hplain : (ofLocalName scope n type).isPlain = true → type' = type)
    (hlabel : (ofLocalName scope n type).isLabel = true → type' = TypeToken.label) :
    ofLocalName scope n type' = ofLocalName scope n type := by
  unfold ofLocalName at hplain hlabel ⊢
  split at hplain
  · next htype => rw [if_pos htype, if_pos (hlabel (by rw [if_pos htype]; rfl))]
  · next htype =>
      have htype' : type' = type := hplain (by split <;> rfl)
      rw [htype']

theorem text_metadata (s : List Char) :
    (metadata (String.ofList s)).text.toList = s :=
  String.toList_ofList

theorem text_data (s : List Char) (type : String) :
    (data (String.ofList s) type).text.toList = s :=
  String.toList_ofList

theorem reparses_metadata (hs : Solid s) (hhead : s.head? = some '!') :
    Reparses scope type (metadata (String.ofList s)) := by
  refine ⟨?_, ?_, ?_, ?_, ?_, ?_⟩
  · rwa [text_metadata]
  · intro hplain
    cases hplain
  · intro type' _ _
    rw [text_metadata]
    exact parse_of_form (form_metadata hs hhead)
  · rw [text_metadata, hhead]
    decide
  · intro hfalse
    cases hfalse
  · rw [text_metadata]
    exact iff_of_true hhead rfl

theorem reparses_data {rest : List Char} (hs : Solid ('c' :: '"' :: rest)) :
    Reparses scope type (data (String.ofList ('c' :: '"' :: rest)) type) := by
  refine ⟨?_, fun _ => rfl, ?_, ?_, ?_, ?_⟩
  · rwa [text_data]
  · intro type' hplain _
    rw [text_data, hplain rfl]
    exact parse_of_form (form_data hs)
  · rw [text_data]
    simp
  · intro _
    rw [text_data]
    rfl
  · rw [text_data]
    simp [isMetadata]

/-- Everything but an operation on constants. -/
theorem reparses_of_spells (hs : Solid s) (h : Spells scope type s (.value v)) :
    Reparses scope type v := by
  generalize hf : Form.value v = f at h
  cases h with
  | metadata hhead =>
      obtain rfl := Form.value.inj hf
      exact reparses_metadata hs hhead
  | @label rest n hname =>
      obtain rfl := Form.value.inj hf
      have hident := (sigilName?_eq_some hname).2
      refine .of_isWord ?_ rfl ?_ ?_
      · rw [text_label]
        exact isWord_cons (.inl rfl) hident
      · intro hplain
        cases hplain
      · intro type' _ hlabel
        rw [text_label, form_localName hident, ofLocalName, if_pos (hlabel rfl)]
  | int hident value =>
      obtain rfl := Form.value.inj hf
      have hword := isWord_of_isIdentifier (isIdentifier_of_int? (int?_toString value.toInt))
      refine .of_isWord hword rfl (fun _ => rfl) fun type' hplain _ => ?_
      rw [hplain rfl]
      exact form_int value
  | @localName n hident =>
      obtain rfl := Form.value.inj hf
      refine .of_isWord ?_ (isMetadata_ofLocalName n) (fun _ => type_ofLocalName n) ?_
      · rw [text_ofLocalName]
        exact isWord_cons (.inl rfl) hident
      · intro type' hplain hlabel
        rw [text_ofLocalName, form_localName hident, ofLocalName_ofLocalName hplain hlabel]
  | @global n hident =>
      obtain rfl := Form.value.inj hf
      refine .of_isWord ?_ rfl (fun _ => rfl) ?_
      · rw [text_global]
        exact isWord_cons (.inr rfl) hident
      · intro type' hplain _
        rw [text_global, hplain rfl]
        exact form_global hident
  | data rest =>
      obtain rfl := Form.value.inj hf
      exact reparses_data hs
  | expr => cases hf

theorem reread_metadata (hs : Solid s) (hhead : s.head? = some '!') (hpiece : Piece s) :
    Reread scope type s (metadata (String.ofList s)) := by
  refine { reparses_metadata hs hhead with toRespelled := ?_, align := ?_, colon := ?_ }
  · rw [text_metadata]
    exact ⟨hs, hpiece, hpiece, .refl s⟩
  · rw [text_metadata]
    cases hafter : after? "align ".toList s with
    | none => rfl
    | some rest =>
        rw [after?_eq_some_iff.1 hafter] at hhead
        cases hhead
  · intro hfalse
    cases hfalse

/-- A quotation ends in its quote, which is no colon. -/
theorem reread_data {rest : List Char} (hs : Solid ('c' :: '"' :: rest))
    (hquotation : isQuotation ('c' :: '"' :: rest) = true) :
    Reread scope type ('c' :: '"' :: rest) (data (String.ofList ('c' :: '"' :: rest)) type) := by
  obtain ⟨body, hbody, hquote⟩ := isQuotation_eq_true_iff.1 hquotation
  have hpiece : Piece ('c' :: '"' :: rest) := by
    have hlead : Piece ['c'] := by decide
    rw [hbody]
    exact hlead.append (piece_quotation hquote)
  refine { reparses_data hs with toRespelled := ?_, align := ?_, colon := ?_ }
  · rw [text_data]
    exact ⟨hs, hpiece, hpiece, .refl _⟩
  · rw [text_data]
    rfl
  · intro _
    rw [text_data, hbody, ← List.cons_append, List.getLast?_concat]
    decide

theorem piece_of_sigilName? {rest : List Char} {n : String}
    (h : sigilName? '%' (trim rest) = some n) : Piece ("label ".toList ++ rest) := by
  obtain ⟨htrim, hident⟩ := sigilName?_eq_some h
  have hlead : Piece "label ".toList := by decide
  apply hlead.append
  rw [← piece_trim, htrim]
  exact (isWord_cons (.inl rfl) hident).piece

/-- A label is written as one word, whatever stood between the word `label` and its name. -/
theorem reread_label {rest : List Char} {n : String}
    (hname : sigilName? '%' (trim rest) = some n)
    (h : Reparses scope type (label n)) :
    Reread scope type ("label ".toList ++ rest) (label n) := by
  obtain ⟨htrim, hident⟩ := sigilName?_eq_some hname
  have hword : IsWord ('%' :: n.toList) := isWord_cons (.inl rfl) hident
  refine h.reread_of_isWord ?_ (piece_of_sigilName? hname) ?_
  · rw [text_label]
    exact hword
  · rw [List.mem_append, not_or]
    refine ⟨by decide, fun hquote => ?_⟩
    have hmem : '"' ∈ squeeze rest := List.mem_filter.2 ⟨hquote, rfl⟩
    rw [← squeeze_trim, htrim] at hmem
    exact hword.plain.not_mem_quote (List.mem_of_mem_filter hmem)

theorem reread_of_spells (hs : Solid s) (h : Spells scope type s (.value v))
    (hv : v.isRegular = true) : Reread scope type s v := by
  have hreparses := reparses_of_spells hs h
  generalize hf : Form.value v = f at h
  cases h with
  | metadata hhead =>
      obtain rfl := Form.value.inj hf
      exact reread_metadata hs hhead (by simpa [isRegular] using hv)
  | label hname =>
      obtain rfl := Form.value.inj hf
      exact reread_label hname hreparses
  | int hident value =>
      obtain rfl := Form.value.inj hf
      have hword := isWord_of_isIdentifier (isIdentifier_of_int? (int?_toString value.toInt))
      exact hreparses.reread_of_isWord hword (piece_of_isIdentifier hident)
        (plain_of_isIdentifier hident).not_mem_quote
  | @localName n hident =>
      obtain rfl := Form.value.inj hf
      have hword : IsWord ('%' :: n.toList) := isWord_cons (.inl rfl) hident
      refine hreparses.reread_of_isWord ?_ hword.piece hword.plain.not_mem_quote
      rw [text_ofLocalName]
      exact hword
  | @global n hident =>
      obtain rfl := Form.value.inj hf
      have hword : IsWord ('@' :: n.toList) := isWord_cons (.inr rfl) hident
      refine hreparses.reread_of_isWord ?_ hword.piece hword.plain.not_mem_quote
      rw [text_global]
      exact hword
  | data rest =>
      obtain rfl := Form.value.inj hf
      rw [isRegular, String.toList_ofList] at hv
      exact reread_data hs hv
  | expr => cases hf

/-! ## Typed operands -/

/-- A value that was read behind its type, written behind its type again. -/
structure RereadTyped (scope : List String) (s : List Char) (v : Value) : Prop
    extends Respelled s v.typedText.toList where
  parse : parseTyped scope v.typedText.toList = .ok v
  /-- It starts with a word only if it was read from a text that does, or that word is its type. -/
  lead : ∀ w, w.head?.any (· != '!') = true → Unbroken w →
    (after? (w ++ [' ']) v.typedText.toList).isSome = true →
    (after? (w ++ [' ']) (trim s)).isSome = true ∨ v.type.toList = w
  metadata : v.isMetadata = false → v.typedText.toList.head? ≠ some '!'
  colon : v.isMetadata = false → v.typedText.toList.getLast? ≠ some ':'

theorem exists_eq_metadata (h : v.isMetadata = true) : ∃ tag, v = .metadata tag := by
  cases v with
  | metadata tag => exact ⟨tag, rfl⟩
  | _ => cases h

theorem typedText_eq (h : v.isMetadata = false) :
    v.typedText.toList = v.type.toList ++ ' ' :: v.text.toList := by
  have htext : v.typedText = v.type ++ " " ++ v.text := by
    cases v with
    | metadata tag => cases h
    | _ => rfl
  rw [htext, String.toList_append, String.toList_append, List.append_assoc]
  rfl

theorem typedText_label (n : String) : (label n).typedText = "label %" ++ n := by
  have hlead : "label %" = TypeToken.label ++ " " ++ "%" := rfl
  rw [hlead, String.append_assoc]
  rfl

theorem typedForm_metadata (hs : Solid s) (h : s.head? = some '!') :
    typedForm s = .ok (.metadata (String.ofList s)) := by
  unfold typedForm
  rw [hs.trim_eq]
  dsimp only
  rw [if_pos h]

theorem typedForm_typed {t : List Char} (ht : TypeToken.IsToken t) (hhead : t.head? ≠ some '!')
    (hr : Solid r) (hparen : r.head? ≠ some '(') (hcompact : isCompact r = true) :
    typedForm (t ++ ' ' :: r) = .ok (.typed (String.ofList t) r) := by
  have hsolid : Solid (t ++ ' ' :: r) := ht.solid.append_space hr
  have hempty : r.isEmpty = false := List.isEmpty_eq_false_iff.2 hr.ne_nil
  unfold typedForm
  rw [hsolid.trim_eq]
  dsimp only
  rw [List.head?_append_of_ne_nil _ ht.solid.ne_nil, if_neg hhead, ht.take_space hr.head_all hparen]
  dsimp only
  rw [hempty, if_neg Bool.false_ne_true]
  rw [isCompact] at hcompact
  rw [if_pos (by rw [hcompact, Bool.true_or])]

/-- The parts of a typed operand that does not start as metadata. -/
theorem typedForm_eq_typed {type : String} (h : typedForm s = .ok (.typed type r)) :
    (trim s).head? ≠ some '!' ∧ TypeToken.take (trim s) = .ok (type.toList, r) := by
  unfold typedForm at h
  dsimp only at h
  split at h
  · cases h
  · next hhead =>
      refine ⟨hhead, ?_⟩
      split at h
      · cases h
      · next htake =>
          split at h
          · cases h
          · split at h
            · obtain ⟨rfl, rfl⟩ := TypedForm.typed.inj (Except.ok.inj h)
              rw [htake, String.toList_ofList]
            · cases h

theorem typedForm_eq_metadata {tag : String} (h : typedForm s = .ok (.metadata tag)) :
    (trim s).head? = some '!' ∧ tag = String.ofList (trim s) := by
  unfold typedForm at h
  dsimp only at h
  split at h
  · next hhead =>
      obtain rfl := TypedForm.metadata.inj (Except.ok.inj h)
      exact ⟨hhead, rfl⟩
  · split at h
    · cases h
    · split at h
      · cases h
      · split at h <;> cases h

/-- Metadata is written without a type. -/
theorem rereadTyped_metadata {tag : String} (hs : Solid tag.toList) (hhead : tag.toList.head? = some '!')
    (hsource : Piece s) (htag : Piece tag.toList) (hkeeps : Keeps s tag.toList) :
    RereadTyped scope s (.metadata tag) := by
  refine ⟨⟨hs, hsource, htag, hkeeps⟩, ?_, ?_, ?_, ?_⟩
  · change parseTyped scope tag.toList = _
    rw [parseTyped, typedForm_metadata hs hhead, String.ofList_toList]
  · intro w hw _ hlead
    obtain ⟨rest, hrest⟩ := Option.isSome_iff_exists.1 hlead
    have hsplit : tag.toList = w ++ [' '] ++ rest := after?_eq_some_iff.1 hrest
    cases w with
    | nil => cases hw
    | cons c w =>
        rw [hsplit] at hhead
        obtain rfl := Option.some.inj hhead
        cases hw
  · intro hfalse
    cases hfalse
  · intro hfalse
    cases hfalse

/-- The type that a value is written behind: its own, or `label`. -/
theorem type_of_parse (hv : v.isMetadata = false)
    (htype : v.isPlain = true → v.type = type) :
    v.type = type ∨ v.isLabel = true ∧ v.type = TypeToken.label := by
  cases v with
  | metadata tag => cases hv
  | label name => exact .inr ⟨rfl, rfl⟩
  | _ =>
      left
      exact htype rfl

/-- A text that starts with a type and a blank starts with a word and a blank only if the type
does or is that word. -/
theorem after?_typed {t : List Char} (hw : Unbroken w)
    (h : (after? (w ++ [' ']) (t ++ ' ' :: r)).isSome = true) :
    (after? (w ++ [' ']) t).isSome = true ∨ t = w := by
  obtain ⟨rest, hrest⟩ := Option.isSome_iff_exists.1 h
  have hsplit := after?_eq_some_iff.1 hrest
  rw [List.append_assoc, List.singleton_append] at hsplit
  rcases List.append_eq_append_iff.1 hsplit with ⟨x, rfl, hx⟩ | ⟨x, rfl, hx⟩
  · cases x with
    | nil => exact .inr (List.append_nil t).symm
    | cons c x =>
        obtain rfl := (List.cons.inj hx).1
        exact absurd (hw ' ' (by simp)) (by decide)
  · cases x with
    | nil => exact .inr (List.append_nil w)
    | cons c x =>
        obtain rfl := (List.cons.inj hx).1
        left
        rw [Option.isSome_iff_exists]
        exact ⟨x, after?_eq_some_iff.2 (by simp)⟩

theorem Reread.reparses (h : Reread scope type s v) : Reparses scope type v := { h with }

/-- Behind its type, a value is read from its own text. -/
theorem Reparses.parseTyped (h : Reparses scope type v) (hv : v.isMetadata = false)
    (htoken : TypeToken.IsToken v.type.toList) (hhead : v.type.toList.head? ≠ some '!') :
    parseTyped scope v.typedText.toList = .ok v := by
  rw [typedText_eq hv, Value.parseTyped,
    typedForm_typed htoken hhead h.solid h.paren (h.compact hv)]
  dsimp only
  rw [String.ofList_toList]
  apply h.parse v.type h.type_eq
  intro hlabel
  cases v with
  | label name => rfl
  | _ => cases hlabel

theorem RereadTyped.of_reread {type : String} (hv : v.isMetadata = false)
    (hr : Reread scope type r v) (htoken : TypeToken.IsToken v.type.toList)
    (hhead : v.type.toList.head? ≠ some '!') (hpiece : Piece v.type.toList) (hs : Piece s)
    (hkeeps : Keeps s (v.type.toList ++ ' ' :: v.text.toList))
    (hlead : ∀ w, Unbroken w → (after? (w ++ [' ']) v.type.toList).isSome = true →
      (after? (w ++ [' ']) (trim s)).isSome = true) : RereadTyped scope s v := by
  have hsolid : Solid (v.type.toList ++ ' ' :: v.text.toList) :=
    htoken.solid.append_space hr.solid
  rw [← typedText_eq hv] at hsolid hkeeps
  constructor
  · refine ⟨hsolid, hs, ?_, hkeeps⟩
    rw [typedText_eq hv]
    exact hpiece.append (blanks_space.piece.append hr.piece)
  · exact hr.reparses.parseTyped hv htoken hhead
  · intro w _ hw hafter
    rw [typedText_eq hv] at hafter
    rcases after?_typed hw hafter with htype | htype
    · exact .inl (hlead w hw htype)
    · exact .inr htype
  · intro _
    rwa [typedText_eq hv, List.head?_append_of_ne_nil _ htoken.solid.ne_nil]
  · intro _
    have hcolon := hr.colon hv
    rw [List.getLast?_eq_some_getLast hr.solid.ne_nil] at hcolon
    rw [typedText_eq hv, List.getLast?_append, List.getLast?_cons,
      List.getLast?_eq_some_getLast hr.solid.ne_nil]
    exact hcolon

/-- A value is written behind the type that it was read behind. -/
theorem RereadTyped.of_take {type : List Char} (hv : v.isMetadata = false)
    (hr : Reread scope (String.ofList type) r v) (htype : v.type = String.ofList type)
    (hs : Piece s) (hhead : (trim s).head? ≠ some '!')
    (htake : TypeToken.take (trim s) = .ok (type, r)) : RereadTyped scope s v := by
  obtain ⟨gap, hgap, hsplit⟩ := TypeToken.exists_append_of_take htake
  rw [trimStart_trim] at hsplit
  have hpiece : Piece (trim s) := piece_trim.2 hs
  have hne : type ≠ [] := TypeToken.ne_nil_of_piece htake hpiece
  have hhead' : type.head? ≠ some '!' := by
    rwa [hsplit, List.append_assoc, List.head?_append_of_ne_nil _ hne] at hhead
  have htype' : v.type.toList = type := by rw [htype, String.toList_ofList]
  refine RereadTyped.of_reread hv hr ?_ ?_ ?_ hs ?_ ?_ <;> rw [htype']
  · exact TypeToken.isToken_of_take htake hne
  · exact hhead'
  · exact TypeToken.piece_of_take htake hpiece hr.source.balanced
  · have hkeeps := Keeps.trim s
    rw [hsplit, List.append_assoc] at hkeeps
    exact hkeeps.trans ((Keeps.refl _).append
      ((Keeps.of_blanks hgap (b := [' ']) (by decide)).append hr.keeps))
  · intro w _ hw
    obtain ⟨rest, hrest⟩ := Option.isSome_iff_exists.1 hw
    rw [Option.isSome_iff_exists]
    refine ⟨rest ++ gap ++ r, after?_eq_some_iff.2 ?_⟩
    rw [hsplit, after?_eq_some_iff.1 hrest]
    simp

/-- A label is written behind the word `label`, whatever stood in front of it. -/
theorem RereadTyped.of_label {type : String} (hv : v.isMetadata = false)
    (hr : Reread scope type r v) (hlabel : v.type = TypeToken.label) (hs : Piece s)
    (hkeeps : Keeps s v.text.toList) : RereadTyped scope s v := by
  refine RereadTyped.of_reread hv hr ?_ ?_ ?_ hs ?_ ?_ <;> rw [hlabel]
  · exact TypeToken.isToken_label
  · decide
  · decide
  · have hplain : Keeps [] (TypeToken.label.toList ++ [' ']) :=
      .of_plain List.not_mem_nil (by decide)
    have hlead := hkeeps.trans (hplain.append (Keeps.refl v.text.toList))
    rwa [List.append_assoc] at hlead
  · intro w _ hw
    rw [after?_of_unbroken (by decide) (by simp)] at hw
    cases hw

/-- A typed operand is written again, if that holds of its value. -/
theorem rereadTyped (hs : Piece s) (h : parseTyped scope s = .ok v) (hv : v.isRegular = true)
    (ih : ∀ r type, r.length ≤ s.length → parse scope r type = .ok v →
      Reread scope type r v) : RereadTyped scope s v := by
  unfold parseTyped at h
  split at h
  · cases h
  · next tag hform =>
      obtain rfl := Except.ok.inj h
      obtain ⟨hhead, rfl⟩ := typedForm_eq_metadata hform
      have hsolid : Solid (trim s) := solid_trim fun hnil => by
        rw [hnil] at hhead
        cases hhead
      have hpiece : Piece (trim s) := by
        rw [← String.toList_ofList (l := trim s)]
        simpa [isRegular] using hv
      rw [← String.toList_ofList (l := trim s)] at hsolid hhead hpiece
      refine rereadTyped_metadata hsolid hhead hs hpiece ?_
      rw [String.toList_ofList]
      exact Keeps.trim s
  · next type r hform =>
      have hreread := ih r type (length_le_of_typedForm hform) h
      obtain ⟨hhead, htake⟩ := typedForm_eq_typed hform
      -- Where the type is not written again, the value is what is left behind it.
      have hdrop : Keeps s v.text.toList := by
        obtain ⟨gap, hgap, hsplit⟩ := TypeToken.exists_append_of_take htake
        rw [trimStart_trim] at hsplit
        have htype : Piece type.toList :=
          TypeToken.piece_of_take htake (piece_trim.2 hs) hreread.source.balanced
        have hkeeps := Keeps.trim s
        rw [hsplit] at hkeeps
        exact hkeeps.trans ((Keeps.drop_left (htype.append
          (Blanks.piece hgap)).balanced.quotedAfter).trans hreread.keeps)
      cases hmetadata : v.isMetadata with
      | true =>
          obtain ⟨tag, rfl⟩ := exists_eq_metadata hmetadata
          exact rereadTyped_metadata hreread.solid (hreread.metadata.2 rfl) hs hreread.piece hdrop
      | false =>
          rcases type_of_parse hmetadata hreread.type_eq with htype | ⟨-, hlabel⟩
          · rw [← String.ofList_toList (s := type)] at hreread htype
            exact .of_take hmetadata hreread htype hs hhead htake
          · exact .of_label hmetadata hreread hlabel hs hdrop

/-! ## Lists and operations on constants -/

/-- Typed operands between commas. -/
def listText (vs : List Value) : List Char :=
  [',', ' '].intercalate (vs.map fun v => v.typedText.toList)

/-- Typed operands that were read from a text, written again between commas. -/
structure RereadList (scope : List String) (s : List Char) (vs : List Value) : Prop where
  source : Balanced s
  balanced : Balanced (listText vs)
  keeps : Keeps s (listText vs)
  parse : parseTypedList scope (listText vs) = .ok vs

variable {vs : List Value} {parts ws : List (List Char)} {inside : List Char}

theorem splitOperands_intercalate (h : ∀ p ∈ parts, Solid p ∧ Piece p) :
    splitOperands ([',', ' '].intercalate parts) = .ok parts := by
  rw [splitOperands, splitTop?_intercalate h]

/-- Every part is written again, if that holds of the values that are no longer than the text. -/
theorem forall₂_rereadTyped {n : Nat} (hparts : ∀ p ∈ parts, Piece p ∧ p.length ≤ n)
    (h : List.Forall₂ (fun p v => parseTyped scope p = .ok v) parts vs)
    (hv : ∀ v ∈ vs, v.isRegular = true)
    (ih : ∀ r type v, r.length ≤ n → parse scope r type = .ok v → v.isRegular = true →
      Reread scope type r v) : List.Forall₂ (RereadTyped scope) parts vs := by
  induction h with
  | nil => exact .nil
  | cons hparse _ ih' =>
      obtain ⟨⟨hpiece, hlength⟩, hparts⟩ := List.forall_mem_cons.1 hparts
      obtain ⟨hv, hvs⟩ := List.forall_mem_cons.1 hv
      refine .cons (rereadTyped hpiece hparse hv fun r type hr hp => ?_) (ih' hparts hvs)
      exact ih r type _ (Nat.le_trans hr hlength) hp hv

/-- A list is read from what is written for it, if its operands are. -/
theorem parseTypedList_listText
    (hpieces : ∀ v ∈ vs, Solid v.typedText.toList ∧ Piece v.typedText.toList)
    (hparse : ∀ v ∈ vs, parseTyped scope v.typedText.toList = .ok v) :
    parseTypedList scope (listText vs) = .ok vs := by
  apply bind_eq_ok_iff.2
  refine ⟨_, splitOperands_intercalate (List.forall_mem_map.2 hpieces), ?_⟩
  apply mapM_eq_ok_iff.2
  rw [List.forall₂_map_left_iff, List.forall₂_same]
  exact hparse

theorem balanced_listText (h : ∀ v ∈ vs, Piece v.typedText.toList) : Balanced (listText vs) :=
  balanced_intercalate (List.forall_mem_map.2 h)

theorem rereadList_of_forall₂ (hs : splitTop? s = some parts)
    (h : List.Forall₂ (RereadTyped scope) parts vs) : RereadList scope s vs := by
  have hkeeps : List.Forall₂ Keeps parts (vs.map fun v => v.typedText.toList) :=
    List.forall₂_map_right_iff.2 (h.imp fun _ _ hr => hr.keeps)
  have hpieces := forall_mem_of_forall₂
    (P := fun v : Value => Solid v.typedText.toList ∧ Piece v.typedText.toList)
    (h.imp fun _ _ hr => ⟨hr.solid, hr.piece⟩)
  exact ⟨balanced_of_splitTop? hs, balanced_listText fun v hv => (hpieces v hv).2,
    .intercalate hs hkeeps,
    parseTypedList_listText hpieces (forall_mem_of_forall₂ (h.imp fun _ _ hr => hr.parse))⟩

/-- A list is written again, if that holds of the values that are no longer than its text. -/
theorem rereadList_of_length_le (h : parseTypedList scope s = .ok vs)
    (hv : ∀ v ∈ vs, v.isRegular = true)
    (ih : ∀ r type v, r.length ≤ s.length → parse scope r type = .ok v → v.isRegular = true →
      Reread scope type r v) : RereadList scope s vs := by
  obtain ⟨parts, hparts, hvs⟩ := bind_eq_ok_iff.1 h
  have hs := splitOperands_eq_ok_iff.1 hparts
  apply rereadList_of_forall₂ hs
  apply forall₂_rereadTyped (n := s.length) _ (mapM_eq_ok_iff.1 hvs) hv ih
  intro p hp
  exact ⟨piece_of_mem_splitTop? hs hp, length_le_of_mem_splitTop? hs hp⟩

theorem mem_intercalate_space {c : Char} (h : c ∈ [' '].intercalate ws) :
    c = ' ' ∨ ∃ w ∈ ws, c ∈ w := by
  induction ws with
  | nil => cases h
  | cons w ws ih =>
      cases ws with
      | nil => exact .inr ⟨w, List.mem_cons_self, by simpa using h⟩
      | cons v ws =>
          rw [List.intercalate_cons_cons, List.mem_append, List.mem_append] at h
          rcases h with (h | h) | h
          · exact .inr ⟨w, List.mem_cons_self, h⟩
          · exact .inl (List.mem_singleton.1 h)
          · rcases ih h with h | ⟨u, hu, h⟩
            · exact .inl h
            · exact .inr ⟨u, List.mem_cons_of_mem w hu, h⟩

theorem exists_intercalate_space_cons (w : List Char) (ws : List (List Char)) :
    ∃ r, [' '].intercalate (w :: ws) ++ [' '] = w ++ ' ' :: r := by
  cases ws with
  | nil => exact ⟨[], by simp⟩
  | cons v ws => exact ⟨_, by rw [List.intercalate_cons_cons, List.append_assoc,
      List.append_assoc, List.singleton_append]⟩

theorem toList_intercalate_space (ws : List (List Char)) :
    (" ".intercalate (ws.map String.ofList)).toList = [' '].intercalate ws := by
  rw [String.toList_intercalate, List.map_map]
  congr 1
  exact (List.map_congr_left fun w _ => String.toList_ofList).trans (List.map_id' ws)

theorem text_expr (ws : List (List Char)) :
    (expr (" ".intercalate (ws.map String.ofList)) vs type).text.toList =
      ([' '].intercalate ws ++ [' ']) ++ '(' :: (listText vs ++ [')']) := by
  rw [text, typedTexts_eq_map, String.toList_append, String.toList_append, String.toList_append,
    toList_intercalate_space, String.toList_intercalate, List.map_map, listText]
  simp [Function.comp_def]

theorem isBlank_of_isLower {c : Char} (h : c.isLower = true) : isBlank c = false :=
  isBlank_of_isAlphanum (isAlphanum_of_isLower h)

/-- The words in front of the parentheses of an operation. -/
theorem words_of_front {front : List Char} (hhead : front.head?.any Char.isLower = true)
    (hall : ∀ c ∈ front, c.isLower = true ∨ isBlank c = true) :
    words front ≠ [] ∧
      ∀ w ∈ words front, Unbroken w ∧ w ≠ [] ∧ ∀ c ∈ w, c.isLower = true := by
  constructor
  · intro hnil
    cases front with
    | nil => cases hhead
    | cons c front =>
        have hsqueeze := squeeze_eq_flatten_words (c :: front)
        rw [hnil, squeeze_cons_of_not_blank (isBlank_of_isLower hhead)] at hsqueeze
        cases hsqueeze
  · intro w hw
    obtain ⟨hunbroken, hne, hsub⟩ := of_mem_words hw
    refine ⟨hunbroken, hne, fun c hc => ?_⟩
    rcases hall c (hsub hc) with hlower | hblank
    · exact hlower
    · rw [hunbroken c hc] at hblank
      cases hblank

theorem lower_front (h : ∀ w ∈ ws, ∀ c ∈ w, c.isLower = true) {c : Char}
    (hc : c ∈ [' '].intercalate ws ++ [' ']) : c.isLower = true ∨ c = ' ' := by
  rcases List.mem_append.1 hc with hc | hc
  · rcases mem_intercalate_space hc with rfl | ⟨w, hw, hc⟩
    · exact .inr rfl
    · exact .inl (h w hw c hc)
  · exact .inr (List.mem_singleton.1 hc)

theorem plain_of_lower (h : ∀ c ∈ s, c.isLower = true ∨ c = ' ') : Plain s := by
  intro c hc
  rcases h c hc with hlower | rfl
  · refine ⟨?_, ?_, ?_⟩ <;>
    · rintro rfl
      cases hlower
  · decide

theorem piece_of_lower (h : ∀ c ∈ s, c.isLower = true ∨ isBlank c = true) : Piece s := by
  apply piece_of_neutral
  intro c hc
  rcases h c hc with hlower | hblank
  · have hident : isIdentifierChar c = true := by
      simp [isIdentifierChar, isAlphanum_of_isLower hlower]
    refine ⟨neutral_of_isIdentifierChar hident, ?_⟩
    rintro rfl
    cases hident
  · refine ⟨Nesting.neutral_of_isBlank hblank, ?_⟩
    rintro rfl
    cases hblank

/-- An operation on constants as it is written: words in lower case, parentheses around its
operands. -/
structure WrittenExpr (ws : List (List Char)) (vs : List Value) (out : List Char) : Prop where
  words : ws ≠ [] ∧ ∀ w ∈ ws, Unbroken w ∧ w ≠ [] ∧ ∀ c ∈ w, c.isLower = true
  text : out = ([' '].intercalate ws ++ [' ']) ++ '(' :: (listText vs ++ [')'])

theorem writtenExpr (h : constantExpression? s = some (ws, inside)) (vs : List Value)
    (type : String) :
    WrittenExpr ws vs (expr (" ".intercalate (ws.map String.ofList)) vs type).text.toList := by
  obtain ⟨front, -, hhead, hall, -, hwords⟩ := constantExpression?_eq_some_iff.1 h
  have hfront := words_of_front hhead hall
  rw [hwords] at hfront
  exact ⟨hfront, text_expr ws⟩

namespace WrittenExpr

theorem lower (h : WrittenExpr ws vs out) {c : Char} (hc : c ∈ [' '].intercalate ws ++ [' ']) :
    c.isLower = true ∨ c = ' ' :=
  lower_front (fun w hw => (h.words.2 w hw).2.2) hc

theorem piece_front (h : WrittenExpr ws vs out) : Piece ([' '].intercalate ws ++ [' ']) := by
  apply piece_of_lower
  intro c hc
  rcases h.lower hc with hlower | rfl
  · exact .inl hlower
  · exact .inr rfl

theorem words_front (h : WrittenExpr ws vs out) {a : List Char} (ha : Blanks a) :
    Text.words ([' '].intercalate ws ++ a) = ws :=
  words_intercalate (fun w hw => ⟨(h.words.2 w hw).1, (h.words.2 w hw).2.1⟩) ha

theorem head (h : WrittenExpr ws vs out) : out.head?.any Char.isLower = true := by
  obtain ⟨w, ws, rfl⟩ := List.exists_cons_of_ne_nil h.words.1
  obtain ⟨r, hr⟩ := exists_intercalate_space_cons w ws
  obtain ⟨-, hne, hlower⟩ := h.words.2 w List.mem_cons_self
  obtain ⟨c, w, rfl⟩ := List.exists_cons_of_ne_nil hne
  rw [h.text, hr]
  exact hlower c List.mem_cons_self

theorem head_ne (h : WrittenExpr ws vs out) {c : Char} (hc : c.isLower = false) :
    out.head? ≠ some c := by
  intro hhead
  have hlower := h.head
  rw [hhead, Option.any_some, hc] at hlower
  cases hlower

theorem last (h : WrittenExpr ws vs out) : out.getLast? = some ')' := by
  rw [h.text, ← List.cons_append, ← List.append_assoc, List.getLast?_concat]

theorem solid (h : WrittenExpr ws vs out) : Solid out := by
  constructor
  · obtain ⟨c, hc, hlower⟩ := (Option.any_eq_true _ _).1 h.head
    rw [hc, Option.any_some, isBlank_of_isLower hlower]
    rfl
  · rw [h.last]
    rfl

/-- Only the first word of the opcode can be read as a word in front. -/
theorem after?_eq_none (h : WrittenExpr ws vs out) (hw : Unbroken w) (hne : w ≠ [])
    (hfirst : ws.head? ≠ some w) : after? (w ++ [' ']) out = none := by
  obtain ⟨u, ws, rfl⟩ := List.exists_cons_of_ne_nil h.words.1
  obtain ⟨r, hr⟩ := exists_intercalate_space_cons u ws
  obtain ⟨hu, hu_ne, -⟩ := h.words.2 u List.mem_cons_self
  have hw_u : w ≠ u := by
    rintro rfl
    exact hfirst rfl
  rw [h.text, hr, List.append_assoc]
  exact after?_of_breaks hu hu_ne rfl hw hne hw_u

theorem constantExpression?_eq (h : WrittenExpr ws vs out) (hnewline : '\n' ∉ listText vs) :
    constantExpression? out = some (ws, listText vs) := by
  apply constantExpression?_eq_some_iff.2
  refine ⟨_, h.text, ?_, ?_, hnewline, h.words_front blanks_space⟩
  · have hne : [' '].intercalate ws ++ [' '] ≠ [] := by simp
    have hhead := h.head
    rwa [h.text, List.head?_append_of_ne_nil _ hne] at hhead
  · intro c hc
    rcases h.lower hc with hlower | rfl
    · exact .inl hlower
    · exact .inr rfl

end WrittenExpr

theorem words_opcode (h : constantExpression? s = some (ws, inside)) :
    words (" ".intercalate (ws.map String.ofList)).toList = ws := by
  rw [toList_intercalate_space, ← List.append_nil ([' '].intercalate _)]
  exact (writtenExpr h [] "").words_front (by decide)

/-- An operation on constants is read from its own text if its operands are. -/
theorem reparses_expr (h : constantExpression? s = some (ws, inside))
    (hlist : parseTypedList scope (listText vs) = .ok vs) (hnewline : '\n' ∉ listText vs)
    (hlabel : ws.head? ≠ some "label".toList) :
    Reparses scope type (expr (" ".intercalate (ws.map String.ofList)) vs type) := by
  have hwritten := writtenExpr h vs type
  have hexpr := hwritten.constantExpression?_eq hnewline
  refine ⟨hwritten.solid, fun _ => rfl, ?_, hwritten.head_ne rfl, ?_,
    iff_of_false (hwritten.head_ne rfl) Bool.false_ne_true⟩
  · intro type' hplain _
    have hafter := hwritten.after?_eq_none (w := "label".toList) (by decide) (by decide) hlabel
    rw [hplain rfl, parse_eq, form_expr hwritten.solid hexpr hafter]
    dsimp only
    rw [hlist]
    rfl
  · intro _
    rw [isCompact, hexpr]
    simp

/-- An operation on constants is written again, if that holds of its operands. -/
theorem reread_expr (h : constantExpression? s = some (ws, inside))
    (hlist : RereadList scope inside vs)
    (hopcode : isReservedOpcode (" ".intercalate (ws.map String.ofList)) = false) :
    Reread scope type s (expr (" ".intercalate (ws.map String.ofList)) vs type) := by
  obtain ⟨front, hsplit, hhead, hall, hnewline, -⟩ := constantExpression?_eq_some_iff.1 h
  have hwritten := writtenExpr h vs type
  have hfirst : ∀ word ∈ ["label".toList, "align".toList], ws.head? ≠ some word := by
    intro word hword hws
    rw [isReservedOpcode, words_opcode h, hws, Option.any_some, Bool.eq_false_iff, ne_eq,
      List.elem_iff] at hopcode
    exact hopcode hword
  have hreparses : Reparses scope type (expr (" ".intercalate (ws.map String.ofList)) vs type) :=
    reparses_expr h hlist.parse (fun hn => hnewline (hlist.keeps.newline hn))
      (hfirst _ (by decide))
  refine { hreparses with toRespelled := ⟨hwritten.solid, ?_, ?_, ?_⟩, align := ?_, colon := ?_ }
  · rw [hsplit]
    exact (piece_of_lower hall).append (hlist.source.bracket rfl rfl)
  · rw [hwritten.text]
    exact hwritten.piece_front.append (hlist.balanced.bracket rfl rfl)
  · rw [hwritten.text, hsplit]
    have hquote : '"' ∉ front := by
      intro hquote
      rcases hall _ hquote with hq | hq <;> cases hq
    exact (Keeps.of_plain hquote (plain_of_lower fun _ hc => hwritten.lower hc)).append
      (.cons '(' (hlist.keeps.append (.refl _)))
  · exact hwritten.after?_eq_none (w := "align".toList) (by decide) (by decide)
      (hfirst _ (by decide))
  · intro _
    rw [hwritten.last]
    decide

theorem Reread.of_trim (h : Reread scope type (trim s) v) : Reread scope type s v :=
  { h with
    source := piece_trim.1 h.source
    keeps := (Keeps.trim s).trans h.keeps }

/-- A regular value is read again from the bare text it is written as. -/
theorem reread_of_parse (h : parse scope s type = .ok v) (hv : v.isRegular = true) :
    Reread scope type s v := by
  revert hv
  refine parse_induction (motive := fun s type v => v.isRegular = true → Reread scope type s v)
    ?bare ?operation h
  case bare =>
    intro s type v hform hv
    obtain ⟨hsolid, hspells⟩ := spells_of_form hform
    exact (reread_of_spells hsolid hspells hv).of_trim
  case operation =>
    intro s type ws inside vs hexpr hvs ih hv
    rw [isRegular, Bool.and_eq_true, Bool.not_eq_true', areRegular_iff] at hv
    obtain ⟨hopcode, hregular⟩ := hv
    have hlist := rereadList_of_length_le hvs (fun v hv => (hregular v hv).1) ih
    exact (reread_expr hexpr hlist hopcode).of_trim

/-- A regular value is read again from the text it is written as behind its type. -/
theorem rereadTyped_of_parseTyped (hs : Piece s) (h : parseTyped scope s = .ok v)
    (hv : v.isRegular = true) : RereadTyped scope s v :=
  rereadTyped hs h hv fun _ _ _ hparse => reread_of_parse hparse hv

theorem rereadList_of_parseTypedList (h : parseTypedList scope s = .ok vs)
    (hv : ∀ v ∈ vs, v.isRegular = true) : RereadList scope s vs :=
  rereadList_of_length_le h hv fun _ _ _ _ hparse hv => reread_of_parse hparse hv

end Value

end SsaIr
