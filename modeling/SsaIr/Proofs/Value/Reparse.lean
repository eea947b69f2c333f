import SsaIr.Proofs.Value.OneLine
import SsaIr.Proofs.Value.Weight

/-!
# Values that are read from their own text

Metadata is written without the type it was read behind, and a type may hold the bracket or quote
that matches one in the metadata. Where that happens inside an operation, its text falls apart
otherwise than its operands do. All other values are read from their own text, at any depth.
-/

namespace SsaIr

open Text

namespace Value

variable {scope : List String} {type : String} {s r t out inside : List Char} {v : Value}
  {vs : List Value} {parts ws : List (List Char)}

/-- An operation in the value starts with the word that stands in front of labels. -/
def HasLabelOpcode (v : Value) : Prop :=
  ∃ opcode vs type, Occurs (.expr opcode vs type) v ∧
    (words opcode.toList).head? = some "label".toList

theorem hasLabelOpcode_expr {opcode : String} :
    (expr opcode vs type).HasLabelOpcode ↔
      (words opcode.toList).head? = some "label".toList ∨ ∃ v ∈ vs, v.HasLabelOpcode := by
  constructor
  · rintro ⟨opcode', us, type', hoccurs, hhead⟩
    cases hoccurs with
    | here => exact .inl hhead
    | operand hv hinside => exact .inr ⟨_, hv, opcode', us, type', hinside, hhead⟩
  · rintro (hhead | ⟨v, hv, opcode', us, type', hoccurs, hhead⟩)
    · exact ⟨opcode, vs, type, .here, hhead⟩
    · exact ⟨opcode', us, type', .operand hv hoccurs, hhead⟩

theorem piece_append_congr (h : squeeze s = squeeze out) (ht : Piece (t ++ s)) :
    Piece (t ++ out) := by
  rw [← piece_squeeze, squeeze_append] at ht ⊢
  rwa [← h]

/-- A value that was read from a text and can be written in its place. -/
structure Restates (scope : List String) (type : String) (s : List Char) (v : Value) : Prop
    extends Reparses scope type v where
  replaces : ∀ t, Piece (t ++ s) → Piece (t ++ v.text.toList)
  label : v.isLabel = true → Piece v.text.toList

theorem Restates.of_trim (h : Restates scope type (trim s) v) : Restates scope type s v :=
  { h with replaces := fun t ht => h.replaces t (piece_append_congr (squeeze_trim s).symm ht) }

/-- A word stands for any balanced text. -/
theorem Reparses.restates_of_piece (h : Reparses scope type v) (hs : Balanced s)
    (hout : Piece v.text.toList) : Restates scope type s v :=
  { h with
    replaces := fun _ ht => (ht.of_append_right hs).append hout
    label := fun _ => hout }

theorem Reparses.restates_of_eq (h : Reparses scope type v) (hs : v.text.toList = s)
    (hlabel : v.isLabel = false) : Restates scope type s v :=
  { h with
    replaces := fun t ht => by rwa [hs]
    label := fun htrue => by
      rw [hlabel] at htrue
      cases htrue }

theorem restates_of_spells (hs : Solid s) (h : Spells scope type s (.value v)) :
    Restates scope type s v := by
  have hreparses := reparses_of_spells hs h
  generalize hf : Form.value v = f at h
  cases h with
  | metadata =>
      obtain rfl := Form.value.inj hf
      exact hreparses.restates_of_eq String.toList_ofList rfl
  | @label rest n hname =>
      obtain rfl := Form.value.inj hf
      apply hreparses.restates_of_piece (piece_of_sigilName? hname).balanced
      rw [text_label]
      exact (isWord_cons (.inl rfl) (sigilName?_eq_some hname).2).piece
  | int hident value =>
      obtain rfl := Form.value.inj hf
      have hword := isWord_of_isIdentifier (isIdentifier_of_int? (int?_toString value.toInt))
      exact hreparses.restates_of_piece (piece_of_isIdentifier hident).balanced hword.piece
  | @localName n hident =>
      obtain rfl := Form.value.inj hf
      have hword : IsWord ('%' :: n.toList) := isWord_cons (.inl rfl) hident
      apply hreparses.restates_of_piece hword.piece.balanced
      rw [text_ofLocalName]
      exact hword.piece
  | @global n hident =>
      obtain rfl := Form.value.inj hf
      exact hreparses.restates_of_eq (text_global n) rfl
  | data rest =>
      obtain rfl := Form.value.inj hf
      exact hreparses.restates_of_eq String.toList_ofList rfl
  | expr => cases hf

/-! ## Typed operands -/

/-- A typed operand that can be written in the place of the text it was read from. -/
structure RestatesTyped (scope : List String) (s : List Char) (v : Value) : Prop where
  solid : Solid v.typedText.toList
  parse : parseTyped scope v.typedText.toList = .ok v
  piece : Piece s → v.IsBalanced → Piece v.typedText.toList

/-- No operand starts with a comma. -/
theorem head?_of_form {f : Form} (h : form scope s type = .ok f) (hs : Solid s) :
    s.head? ≠ some ',' := by
  obtain ⟨-, hspells⟩ := spells_of_form h
  rw [hs.trim_eq] at hspells
  intro hcomma
  cases hspells with
  | metadata hhead =>
      rw [hhead] at hcomma
      cases hcomma
  | label => cases hcomma
  | int hident => exact not_mem_of_isIdentifier hident rfl (List.mem_of_mem_head? hcomma)
  | localName => cases hcomma
  | global => cases hcomma
  | data => cases hcomma
  | expr hexpr => exact head?_ne_of_constantExpression? hexpr rfl hcomma

/-- What stands in front of an operand is a type token. -/
theorem isToken_of_typedForm (hform : typedForm s = .ok (.typed type r))
    (h : parse scope r type = .ok v) : TypeToken.IsToken type.toList := by
  obtain ⟨-, htake⟩ := typedForm_eq_typed hform
  obtain ⟨gap, -, hsplit⟩ := TypeToken.exists_append_of_take htake
  refine TypeToken.isToken_of_take htake fun hnil => ?_
  rw [hnil] at htake
  have hcomma := TypeToken.head?_of_take_nil htake
  have hne : trim s ≠ [] := by
    intro hs
    rw [hs] at htake
    cases htake
  have hr : r ≠ [] := by
    rintro rfl
    cases hcomma
  rw [trimStart_trim] at hsplit
  have hsolid : Solid r := (solid_trim hne).of_suffix hsplit hr (by rw [hcomma]; rfl)
  rw [parse_eq] at h
  split at h
  · cases h
  · next hform => exact head?_of_form hform hsolid hcomma
  · next hform => exact head?_of_form hform hsolid hcomma

theorem restatesTyped_metadata {tag : String} (hs : Solid tag.toList)
    (hhead : tag.toList.head? = some '!')
    (hpiece : Piece s → Balanced tag.toList → Piece tag.toList) :
    RestatesTyped scope s (.metadata tag) where
  solid := hs
  parse := by
    change parseTyped scope tag.toList = _
    rw [parseTyped, typedForm_metadata hs hhead, String.ofList_toList]
  piece := fun hsource hbalanced => hpiece hsource (hbalanced.2 tag rfl)

theorem Restates.restatesTyped_of_piece (h : Restates scope type r v) (hv : v.isMetadata = false)
    (htoken : TypeToken.IsToken v.type.toList) (hhead : v.type.toList.head? ≠ some '!')
    (hpiece : Piece s → Piece (v.type.toList ++ ' ' :: v.text.toList)) :
    RestatesTyped scope s v where
  solid := by
    rw [typedText_eq hv]
    exact htoken.solid.append_space h.solid
  parse := h.toReparses.parseTyped hv htoken hhead
  piece := fun hs _ => by
    rw [typedText_eq hv]
    exact hpiece hs

/-- Behind the type it was read behind, a value may stand after one blank. -/
theorem Restates.restatesTyped_of_take {type : List Char}
    (h : Restates scope (String.ofList type) r v) (hv : v.isMetadata = false)
    (htype : v.type = String.ofList type) (htoken : TypeToken.IsToken type)
    (hhead : (trim s).head? ≠ some '!') (htake : TypeToken.take (trim s) = .ok (type, r)) :
    RestatesTyped scope s v := by
  obtain ⟨gap, hgap, hsplit⟩ := TypeToken.exists_append_of_take htake
  rw [trimStart_trim] at hsplit
  rw [hsplit, List.append_assoc, List.head?_append_of_ne_nil _ htoken.solid.ne_nil] at hhead
  have htype' : v.type.toList = type := by rw [htype, String.toList_ofList]
  apply h.restatesTyped_of_piece hv <;> rw [htype']
  · exact htoken
  · exact hhead
  · intro hs
    have hpiece : Piece (type ++ gap ++ v.text.toList) := by
      apply h.replaces
      rw [← hsplit]
      exact piece_trim.2 hs
    have hgap' : squeeze (type ++ gap ++ v.text.toList) =
        squeeze (type ++ ' ' :: v.text.toList) := by
      rw [squeeze_append, squeeze_append, squeeze_append, Blanks.squeeze_eq hgap,
        List.append_nil, squeeze_cons_of_blank (c := ' ') rfl]
    exact piece_append_congr (t := []) hgap' hpiece

theorem Restates.restatesTyped_label (h : Restates scope type r v) (hv : v.isMetadata = false)
    (hlabel : v.isLabel = true) (htype : v.type = TypeToken.label) : RestatesTyped scope s v := by
  have hlead : Piece (TypeToken.label.toList ++ [' ']) := by decide
  apply h.restatesTyped_of_piece hv <;> rw [htype]
  · exact TypeToken.isToken_label
  · decide
  · exact fun _ => hlead.append (h.label hlabel)

/-- A typed operand is read again, if its value is. -/
theorem restatesTyped (h : parseTyped scope s = .ok v)
    (ih : ∀ r type, r.length ≤ s.length → parse scope r type = .ok v →
      Restates scope type r v) : RestatesTyped scope s v := by
  unfold parseTyped at h
  split at h
  · cases h
  · next tag hform =>
      obtain rfl := Except.ok.inj h
      obtain ⟨hhead, rfl⟩ := typedForm_eq_metadata hform
      have hsolid : Solid (trim s) := solid_trim fun hnil => by
        rw [hnil] at hhead
        cases hhead
      rw [← String.toList_ofList (l := trim s)] at hsolid hhead
      refine restatesTyped_metadata hsolid hhead fun hs _ => ?_
      rw [String.toList_ofList]
      exact piece_trim.2 hs
  · next type r hform =>
      have hvalue := ih r type (length_le_of_typedForm hform) h
      have htoken := isToken_of_typedForm hform h
      obtain ⟨hhead, htake⟩ := typedForm_eq_typed hform
      cases hmetadata : v.isMetadata with
      | true =>
          obtain ⟨tag, rfl⟩ := exists_eq_metadata hmetadata
          obtain ⟨gap, -, hsplit⟩ := TypeToken.exists_append_of_take htake
          rw [trimStart_trim] at hsplit
          refine restatesTyped_metadata hvalue.solid (hvalue.metadata.2 rfl) fun hs hbalanced => ?_
          have hpiece : Piece (type.toList ++ gap ++ (Value.metadata tag).text.toList) := by
            apply hvalue.replaces
            rw [← hsplit]
            exact piece_trim.2 hs
          exact hpiece.of_append_left (hpiece.of_append_right hbalanced)
      | false =>
          rcases type_of_parse hmetadata hvalue.type_eq with htype | ⟨hlabel, htype⟩
          · rw [← String.ofList_toList (s := type)] at hvalue htype
            exact hvalue.restatesTyped_of_take hmetadata htype htoken hhead htake
          · exact hvalue.restatesTyped_label hmetadata hlabel htype

/-! ## Operations on constants -/

/-- An operation is read again, if its operands are. -/
theorem restates_expr (h : constantExpression? s = some (ws, inside))
    (hparts : splitTop? inside = some parts)
    (hoperands : ∀ v ∈ vs, ∃ p, Piece p ∧ RestatesTyped scope p v)
    (hline : ∀ v ∈ vs, v.OneLine) (hlabel : ws.head? ≠ some "label".toList)
    (htags : ∀ v ∈ vs, v.IsBalanced) :
    Restates scope type s (expr (" ".intercalate (ws.map String.ofList)) vs type) := by
  have htyped : ∀ v ∈ vs, Solid v.typedText.toList ∧
      parseTyped scope v.typedText.toList = .ok v ∧ Piece v.typedText.toList := by
    intro v hv
    obtain ⟨p, hpiece, hp⟩ := hoperands v hv
    exact ⟨hp.solid, hp.parse, hp.piece hpiece (htags v hv)⟩
  have hlist : parseTypedList scope (listText vs) = .ok vs :=
    parseTypedList_listText (fun v hv => ⟨(htyped v hv).1, (htyped v hv).2.2⟩)
      fun v hv => (htyped v hv).2.1
  have hreparses : Reparses scope type (expr (" ".intercalate (ws.map String.ofList)) vs type) :=
    reparses_expr h hlist (newline_listText hline) hlabel
  obtain ⟨front, hsplit, -, hall, -, -⟩ := constantExpression?_eq_some_iff.1 h
  apply hreparses.restates_of_piece
  · rw [hsplit]
    exact ((piece_of_lower hall).append
      ((balanced_of_splitTop? hparts).bracket rfl rfl)).balanced
  · have hwritten := writtenExpr h vs type
    rw [hwritten.text]
    exact hwritten.piece_front.append
      ((balanced_listText fun v hv => (htyped v hv).2.2).bracket rfl rfl)

/-- A value whose metadata is balanced can be written in the place of what it was read from, unless
an operation in it starts like a label. -/
theorem restates_of_parse (h : parse scope s type = .ok v) (hlabel : ¬v.HasLabelOpcode)
    (htags : v.HasBalancedTags) : Restates scope type s v := by
  revert hlabel htags
  refine parse_induction
    (motive := fun s type v => ¬v.HasLabelOpcode → v.HasBalancedTags → Restates scope type s v)
    ?bare ?operation h
  case bare =>
    intro s type v hform _ _
    obtain ⟨hsolid, hspells⟩ := spells_of_form hform
    exact (restates_of_spells hsolid hspells).of_trim
  case operation =>
    intro s type ws inside vs hexpr hvs ih hlabel htags
    obtain ⟨parts, hparts, hparse⟩ := bind_eq_ok_iff.1 hvs
    have hs := splitOperands_eq_ok_iff.1 hparts
    have hbalanced := hasBalancedTags_expr.1 htags
    rw [hasLabelOpcode_expr, not_or, words_opcode hexpr] at hlabel
    have hoperands : ∀ v ∈ vs, ∃ p, Piece p ∧ RestatesTyped scope p v := by
      intro v hv
      obtain ⟨p, hp, hparse⟩ := exists_of_mem_result hparse hv
      have hp_length := length_le_of_mem_splitTop? hs hp
      refine ⟨p, piece_of_mem_splitTop? hs hp, restatesTyped hparse fun r type hr hread => ?_⟩
      exact ih r type v (Nat.le_trans hr hp_length) hread
        (fun hoperand => hlabel.2 ⟨v, hv, hoperand⟩) (hbalanced v hv).1
    obtain ⟨-, -, -, -, hnewline, -⟩ := constantExpression?_eq_some_iff.1 hexpr
    exact (restates_expr hexpr hs hoperands (oneLine_of_parseTypedList hvs hnewline) hlabel.1
      hbalanced).of_trim

/-- Values are read from their own text, bare and behind their types, exactly if in the metadata of
their operations brackets and quotes match. -/
theorem parse_own_text_iff (scope : List String) :
    (∀ s type v, parse scope s type = .ok v → ¬v.HasLabelOpcode →
      (v.isLabel = true → type = TypeToken.label) →
      (parse scope v.text.toList type = .ok v ↔ v.HasBalancedTags)) ∧
    ∀ s v, parseTyped scope s = .ok v → ¬v.HasLabelOpcode →
      (parseTyped scope v.typedText.toList = .ok v ↔ v.HasBalancedTags) := by
  refine ⟨fun s type v h hlabel htype => ⟨hasBalancedTags_of_parse_text, fun htags => ?_⟩,
    fun s v h hlabel => ⟨hasBalancedTags_of_parse_typedText, fun htags => ?_⟩⟩
  · exact (restates_of_parse h hlabel htags).parse type (fun _ => rfl) htype
  · exact (restatesTyped h fun _ _ _ hparse => restates_of_parse hparse hlabel htags).parse

/-- An operation on metadata, an operation of its own and a data array with a comma in it. -/
def mixedSum : Value :=
  .expr "add" [.metadata "!a[0]", .expr "shl nuw" [.int 1 "i8", .global "g" "i8*"] "i8",
    .data "c\"x,y\"" "[3 x i8]"] "i8"

theorem operations_mixedSum {opcode : String} (h : Occurs (.expr opcode vs type) mixedSum) :
    opcode = "add" ∧ vs = [.metadata "!a[0]",
        .expr "shl nuw" [.int 1 "i8", .global "g" "i8*"] "i8", .data "c\"x,y\"" "[3 x i8]"] ∨
      opcode = "shl nuw" ∧ vs = [.int 1 "i8", .global "g" "i8*"] := by
  unfold mixedSum at h
  cases h with
  | here => exact .inl ⟨rfl, rfl⟩
  | operand hmem hinside =>
      simp only [List.mem_cons, List.not_mem_nil, or_false] at hmem
      rcases hmem with rfl | rfl | rfl
      · cases hinside
      · cases hinside with
        | here => exact .inr ⟨rfl, rfl⟩
        | operand hmem hinside =>
            simp only [List.mem_cons, List.not_mem_nil, or_false] at hmem
            rcases hmem with rfl | rfl <;> cases hinside
      · cases hinside

theorem parse_own_text_mixedSum :
    parse [] mixedSum.text.toList "i8" = .ok mixedSum ∧
      parseTyped [] mixedSum.typedText.toList = .ok mixedSum := by
  have hread : parse [] "add(i8 !a[0],i8  shl nuw( i8 true,i8* @g), [3 x i8]c\"x,y\")".toList "i8" =
      .ok mixedSum := by decide +kernel
  have htyped : parseTyped []
      "i8 add(i8 !a[0],i8  shl nuw( i8 true,i8* @g), [3 x i8]c\"x,y\")".toList = .ok mixedSum := by
    decide +kernel
  have hlabel : ¬mixedSum.HasLabelOpcode := by
    rintro ⟨opcode, vs, type, hoccurs, hhead⟩
    rcases operations_mixedSum hoccurs with ⟨rfl, -⟩ | ⟨rfl, -⟩ <;>
    · revert hhead
      decide
  have htags : mixedSum.HasBalancedTags := by
    intro opcode vs type tag hoccurs hmem
    rcases operations_mixedSum hoccurs with ⟨-, rfl⟩ | ⟨-, rfl⟩
    · obtain rfl : tag = "!a[0]" := by simpa using hmem
      decide
    · simp at hmem
  exact ⟨((parse_own_text_iff []).1 _ _ _ hread hlabel nofun).2 htags,
    ((parse_own_text_iff []).2 _ _ htyped hlabel).2 htags⟩

/-- An operation on metadata that was read behind types with a quote of their own. -/
def tornTags : Value := .expr "foo" [.metadata "!a\"", .metadata "!b\""] "i8"

theorem tornTags_lost :
    parse [] "foo (i8\" !a\", i8\" !b\")".toList "i8" = .ok tornTags ∧
      ¬tornTags.HasLabelOpcode ∧ tornTags.isLabel = false ∧
      parse [] tornTags.text.toList "i8" ≠ .ok tornTags := by
  have hread : parse [] tornTags.text.toList "i8" =
      .ok (.expr "foo" [.metadata "!a\", !b\""] "i8") := by decide +kernel
  refine ⟨by decide +kernel, ?_, rfl, ?_⟩
  · rw [tornTags, hasLabelOpcode_expr]
    rintro (hhead | ⟨v, hv, hoperand⟩)
    · revert hhead
      decide
    · obtain ⟨opcode, us, type, hoccurs, -⟩ := hoperand
      refine not_occurs_expr ?_ hoccurs
      rintro opcode vs type rfl
      simp at hv
  · rw [hread]
    intro hsame
    exact absurd (Except.ok.inj hsame) (by decide)

end Value

end SsaIr
