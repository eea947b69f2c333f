import SsaIr.Proofs.Instruction.Opcodes

/-!
# Instructions are read back

In front of an opcode stand the name of the result and the mark of a tail call. With them the
code of a whole line is read again.
-/

namespace SsaIr.Instruction

open Text

variable {scope : List String} {i i' : Instruction} {rest s : List Char} {op : Opcode}

/-- The words up to the opcode, and what follows it. -/
def Opens (code : List Char) (tail : Bool) (op : Opcode) (rest : List Char) : Prop :=
  if tail then (nextToken code).1 = "tail".toList ∧
    nextToken (nextToken code).2 = (op.keyword.toList, rest)
  else nextToken code = (op.keyword.toList, rest)

theorem keyword_ne_tail (op : Opcode) : op.keyword.toList ≠ "tail".toList := by
  cases op with
  | binary op => cases op <;> decide
  | cast op => cases op <;> decide
  | _ => decide

theorem unbroken_keyword (op : Opcode) :
    Unbroken op.keyword.toList ∧ op.keyword.toList ≠ [] ∧ Plain op.keyword.toList := by
  cases op with
  | binary op => cases op <;> decide
  | cast op => cases op <;> decide
  | _ => decide

theorem parse_eq_ok_iff {code : List Char} :
    parse scope code = .ok i' ↔
      ∃ result s tail op rest i, splitResult code = .ok (result, s) ∧ Opens s tail op rest ∧
        parseRest scope op rest = .ok i ∧ i' = { i with result, tail } := by
  unfold parse
  constructor
  · intro h
    obtain ⟨⟨result, s⟩, hresult, h⟩ := bind_eq_ok_iff.1 h
    dsimp only at h
    split at h
    · cases h
    · next op hop =>
        obtain ⟨i, hparse, h⟩ := bind_eq_ok_iff.1 h
        have hkeyword := congrArg String.toList (Opcode.keyword_of_ofKeyword? hop)
        rw [String.toList_ofList] at hkeyword
        refine ⟨result, s, _, op, _, i, hresult, ?_, hparse, (Except.ok.inj h).symm⟩
        cases htail : (nextToken s).1 == "tail".toList with
        | true =>
            rw [htail] at hkeyword
            exact ⟨eq_of_beq htail, Prod.ext hkeyword.symm rfl⟩
        | false =>
            rw [htail] at hkeyword
            exact Prod.ext hkeyword.symm rfl
  · rintro ⟨result, s, tail, op, rest, i, hresult, hopens, hparse, rfl⟩
    apply bind_eq_ok_iff.2
    refine ⟨(result, s), hresult, ?_⟩
    have htail : ((nextToken s).1 == "tail".toList) = tail := by
      cases tail with
      | true => exact beq_iff_eq.2 hopens.1
      | false =>
          rw [congrArg Prod.fst hopens]
          exact beq_eq_false_iff_ne.2 (keyword_ne_tail op)
    have hword : (if tail then nextToken (nextToken s).2 else ((nextToken s).1, (nextToken s).2)) =
        (op.keyword.toList, rest) := by
      cases tail with
      | true => exact hopens.2
      | false => exact hopens
    dsimp only
    rw [htail, hword, String.ofList_toList, Opcode.ofKeyword?_keyword]
    exact bind_eq_ok_iff.2 ⟨i, hparse, rfl⟩

theorem word_reread {w x : List Char} (h : nextToken s = (w, rest)) (hne : w ≠ [])
    (hrewrites : Rewrites rest x) :
    Rewrites s (w ++ ' ' :: x) ∧ nextToken (w ++ ' ' :: x) = (w, x) := by
  have hw : (nextToken s).1 = w := congrArg Prod.fst h
  have hrest : (nextToken s).2 = rest := congrArg Prod.snd h
  rw [← hrest] at hrewrites
  rw [← hw] at hne ⊢
  exact ⟨hrewrites.word hne, nextToken_space (unbroken_nextToken s) hne hrewrites.solid.head_all⟩

/-- The words up to the opcode as they are written. -/
def openingText (tail : Bool) (op : Opcode) : List Char :=
  (wordIf tail "tail").toList ++ op.keyword.toList

theorem opens_reread {tail : Bool} {x : List Char} (h : Opens s tail op rest)
    (hrewrites : Rewrites rest x) :
    Rewrites s (openingText tail op ++ ' ' :: x) ∧
      Opens (openingText tail op ++ ' ' :: x) tail op x := by
  obtain ⟨-, hne, -⟩ := unbroken_keyword op
  cases tail with
  | false => exact word_reread h hne hrewrites
  | true =>
      obtain ⟨htail, hkeyword⟩ := h
      obtain ⟨hrewrites', hopens⟩ := word_reread hkeyword hne hrewrites
      have hword : nextToken s = ("tail".toList, (nextToken s).2) := Prod.ext htail rfl
      obtain ⟨hrewrites'', hopens'⟩ := word_reread hword (by decide) hrewrites'
      refine ⟨hrewrites'', ?_, ?_⟩
      · exact congrArg Prod.fst hopens'
      · have hsnd := congrArg Prod.snd hopens'
        exact (congrArg nextToken hsnd).trans hopens

/-- An opcode with nothing behind it. -/
theorem opens_alone (h : Opens s false op []) :
    Rewrites s op.keyword.toList ∧ Opens op.keyword.toList false op [] := by
  obtain ⟨hunbroken, hne, hplain⟩ := unbroken_keyword op
  have htoken : nextToken s = (op.keyword.toList, []) := h
  obtain ⟨a, g, ha, hg, hs⟩ := exists_nextToken s
  rw [htoken, List.append_nil] at hs
  refine ⟨⟨.of_unbroken hunbroken hne, ?_, ?_⟩, nextToken_self hunbroken hne⟩
  · apply Keeps.of_plain _ hplain
    rw [hs]
    simp only [List.mem_append, not_or]
    exact ⟨⟨ha.not_mem_quote, hplain.not_mem_quote⟩, hg.not_mem_quote⟩
  · intro hend
    have hsqueeze := squeeze_nextToken s
    rw [htoken] at hsqueeze
    rw [EndsInColon, hunbroken.squeeze_eq] at hend
    rw [EndsInColon, hsqueeze]
    exact (congrArg List.getLast? (List.append_nil _)).trans hend

theorem splitResult_cases {code : List Char} {result : Option String}
    (h : splitResult code = .ok (result, s)) :
    (code.head? ≠ some '%' ∧ result = none ∧ s = code) ∨
      ∃ front after name, code = front ++ '=' :: after ∧
        (trim front).dropWhile (· == '%') = name.toList ∧ isIdentifier name.toList = true ∧
        result = some name ∧ s = trim after := by
  unfold splitResult at h
  split at h
  · split at h
    · cases h
    · next front after hsplit =>
        dsimp only at h
        split at h
        · next hident =>
            obtain ⟨rfl, rfl⟩ := Prod.mk.inj (Except.ok.inj h)
            refine .inr ⟨front, after, _, (splitAt?_eq_some_iff.1 hsplit).1, ?_, ?_, rfl, rfl⟩
            · rw [String.toList_ofList]
            · rwa [String.toList_ofList]
        · cases h
  · next hhead =>
      obtain ⟨rfl, rfl⟩ := Prod.mk.inj (Except.ok.inj h)
      exact .inl ⟨hhead, rfl, rfl⟩

theorem splitResult_none {code : List Char} (h : code.head? ≠ some '%') :
    splitResult code = .ok (none, code) := by
  rw [splitResult, if_neg h]

theorem splitResult_some {name : String} (hname : isIdentifier name.toList = true)
    (hs : Solid s) :
    splitResult ('%' :: (name.toList ++ [' ', '=', ' '] ++ s)) = .ok (some name, s) := by
  have hsplit : splitAt? '=' ('%' :: (name.toList ++ [' ', '=', ' '] ++ s)) =
      some ('%' :: name.toList ++ [' '], ' ' :: s) := by
    rw [splitAt?_eq_some_iff]
    refine ⟨by simp, ?_⟩
    have hmem := not_mem_of_isIdentifier (c := '=') hname (by decide)
    simp [hmem]
  have hsolid : Solid ('%' :: name.toList) :=
    .of_unbroken (Value.isWord_cons (.inl rfl) hname).unbroken (List.cons_ne_nil _ _)
  have hfront : trim ('%' :: name.toList ++ [' ']) = '%' :: name.toList := by
    rw [trim_append_blanks blanks_space, hsolid.trim_eq]
  have hrest : trim (' ' :: s) = s := by rw [trim_space, hs.trim_eq]
  have hdrop : ('%' :: name.toList).dropWhile (· == '%') = name.toList := by
    rw [List.dropWhile_cons_of_pos rfl]
    cases hn : name.toList with
    | nil => rfl
    | cons c cs =>
        rw [hn] at hname
        have hc := mem_of_isIdentifier hname List.mem_cons_self
        apply List.dropWhile_cons_of_neg
        rintro hpercent
        rw [beq_iff_eq.1 hpercent] at hc
        cases hc
  rw [splitResult, if_pos List.head?_cons, hsplit]
  dsimp only
  rw [hfront, hdrop, if_pos hname, hrest, String.ofList_toList]

/-- A named result is written back with one blank on either side of the equals sign. -/
theorem result_reread {front after out : List Char} {name : String}
    (hname : (trim front).dropWhile (· == '%') = name.toList)
    (hident : isIdentifier name.toList = true) (h : Rewrites (trim after) out) :
    Rewrites (front ++ '=' :: after) ('%' :: (name.toList ++ [' ', '=', ' '] ++ out)) := by
  have hquote : '"' ∉ front := by
    obtain ⟨a, b, ha, hb, hfront⟩ := exists_trim front
    have htrim : '"' ∉ trim front := by
      rw [← List.takeWhile_append_dropWhile (p := (· == '%')) (l := trim front), hname,
        List.mem_append, not_or]
      refine ⟨fun hmem => ?_, not_mem_of_isIdentifier hident (by decide)⟩
      have hpercent := List.all_eq_true.1 List.all_takeWhile _ hmem
      cases hpercent
    rw [hfront]
    simp only [List.mem_append, not_or]
    exact ⟨⟨ha.not_mem_quote, htrim⟩, hb.not_mem_quote⟩
  have hplain : Plain ('%' :: (name.toList ++ [' '])) := by
    have hword := (Value.isWord_cons (c := '%') (.inl rfl) hident).plain
    exact hword.append (b := [' ']) (by decide)
  have htext : '%' :: (name.toList ++ [' ', '=', ' '] ++ out) =
      '%' :: (name.toList ++ [' ']) ++ '=' :: ' ' :: out := by
    simp
  rw [htext]
  refine ⟨.append rfl ?_, ?_, ?_⟩
  · rw [← List.singleton_append, ← List.singleton_append (l := out), ← List.append_assoc,
      List.getLast?_append_of_ne_nil _ h.solid.ne_nil]
    exact h.solid.last
  · have hkeeps := Keeps.space.append ((Keeps.trim after).trans h.keeps)
    exact (Keeps.of_plain hquote hplain).append (.cons '=' hkeeps)
  · intro hend
    have hend' := h.colon (EndsInColon.of_append (a := '%' :: (name.toList ++ [' ']) ++ ['=', ' '])
      (by rw [List.append_assoc]; exact hend) h.solid.squeeze_ne_nil)
    rw [← List.singleton_append, ← List.append_assoc]
    exact (endsInColon_trim.1 hend').append_left

/-- Only a call says in its form whether it is a tail call. -/
theorem body_tail (hop : i.opcode = op) (htail : i.tail = false) {r : Option String} {tail : Bool}
    (hcall : tail = true → op = .call) :
    ({ i with result := r, tail } : Instruction).body = wordIf tail "tail" ++ i.body := by
  cases tail with
  | false =>
      have hword : wordIf false "tail" = "" := rfl
      rw [hword, String.empty_append, ← htail]
      rfl
  | true =>
      rw [body, body, hop, hcall rfl]
      dsimp only
      rw [callText, callText, htail]
      simp [wordIf, String.append_assoc]

theorem Opens.head?_rest {tail : Bool} (h : Opens s tail op rest) :
    rest.head?.all (!isBlank ·) = true := by
  cases tail with
  | false =>
      have hrest : (nextToken s).2 = rest := congrArg Prod.snd h
      rw [← hrest]
      exact head?_nextToken s
  | true =>
      have hrest : (nextToken (nextToken s).2).2 = rest := congrArg Prod.snd h.2
      rw [← hrest]
      exact head?_nextToken _

theorem Opens.head?_ne_percent {tail : Bool} (h : Opens s tail op rest) (hs : Solid s) :
    s.head? ≠ some '%' := by
  intro hhead
  have hstart : (nextToken s).1.head? = some '%' := by
    cases s with
    | nil => cases hhead
    | cons c cs =>
        obtain rfl := Option.some.inj hhead
        rfl
  cases tail with
  | false =>
      have hkeyword : (nextToken s).1 = op.keyword.toList := congrArg Prod.fst h
      rw [hkeyword] at hstart
      exact absurd hstart (by cases op with
        | binary op => cases op <;> decide
        | cast op => cases op <;> decide
        | _ => decide)
  | true =>
      rw [h.1] at hstart
      cases hstart

/-- What stands behind the result is read again. -/
theorem opening_reread {tail : Bool} (hopens : Opens s tail op rest)
    (hparse : parseRest scope op rest = .ok i) (hv : ∀ v ∈ i.inputs, v.isRegular = true)
    (hform : i.hasRegularForm = true) (hcall : tail = true → op = .call) :
    ∃ x, Rewrites s ((wordIf tail "tail").toList ++ i.body.toList ++ i.suffixText.toList) ∧
      Opens ((wordIf tail "tail").toList ++ i.body.toList ++ i.suffixText.toList) tail op x ∧
      parseRest scope op x = .ok i := by
  rcases rereadRest hopens.head?_rest hparse hv hform with hreread | ⟨rfl, rfl, rfl⟩
  · obtain ⟨x, htext, hrewrites, hagain⟩ := hreread
    obtain ⟨hrewrites', hopens'⟩ := opens_reread hopens hrewrites
    rw [openingText, List.append_assoc, ← htext, ← List.append_assoc] at hrewrites' hopens'
    exact ⟨x, hrewrites', hopens', hagain⟩
  · cases tail with
    | true => cases hcall rfl
    | false =>
        obtain ⟨hrewrites, hopens'⟩ := opens_alone hopens
        exact ⟨[], hrewrites, hopens', hparse⟩

/-- The code of a regular instruction is read again, and takes the place of the code it was read
from. -/
theorem parse_reread {code : List Char} (h : parse scope code = .ok i) (hi : i.isRegular = true) :
    Rewrites code i.text.toList ∧ parse scope i.text.toList = .ok i := by
  obtain ⟨result, s, tail, op, rest, i, hresult, hopens, hparse, rfl⟩ := parse_eq_ok_iff.1 h
  obtain ⟨-, hop, htail, -⟩ := isFresh_parseRest hparse
  simp only [isRegular, Bool.and_eq_true, Bool.or_eq_true, Bool.not_eq_true', beq_iff_eq,
    List.all_eq_true] at hi
  obtain ⟨⟨⟨hcall, hv⟩, hform⟩, -⟩ := hi
  have hcall' : tail = true → op = .call := by
    rintro rfl
    rw [← hop]
    exact hcall.resolve_left (by simp)
  obtain ⟨x, hrewrites, hopens', hagain⟩ := opening_reread hopens hparse hv hform hcall'
  have hbody := body_tail hop htail (r := result) hcall'
  rcases splitResult_cases hresult with ⟨hhead, rfl, rfl⟩ | ⟨front, after, name, rfl, hname, hident, rfl, rfl⟩
  · have htext : ({ i with result := none, tail } : Instruction).text.toList =
        (wordIf tail "tail").toList ++ i.body.toList ++ i.suffixText.toList := by
      rw [text, hbody, resultText, String.empty_append, String.toList_append,
        String.toList_append]
      rfl
    rw [htext]
    refine ⟨hrewrites, parse_eq_ok_iff.2 ⟨none, _, tail, op, x, i, ?_, hopens', hagain, rfl⟩⟩
    exact splitResult_none (hopens'.head?_ne_percent hrewrites.solid)
  · have htext : ({ i with result := some name, tail } : Instruction).text.toList =
        '%' :: (name.toList ++ [' ', '=', ' '] ++
          ((wordIf tail "tail").toList ++ i.body.toList ++ i.suffixText.toList)) := by
      rw [text, hbody, resultText]
      simp only [String.toList_append, List.append_assoc]
      rfl
    rw [htext]
    refine ⟨result_reread hname hident hrewrites,
      parse_eq_ok_iff.2 ⟨some name, _, tail, op, x, i, ?_, hopens', hagain, rfl⟩⟩
    exact splitResult_some hident hrewrites.solid

/-- The brace at the end of a body is no instruction. -/
theorem ne_close_of_parse {code : List Char} (h : parse scope code = .ok i) : code ≠ ['\x7d'] := by
  rintro rfl
  obtain ⟨result, s, tail, op, rest, i₀, hresult, hopens, -, -⟩ := parse_eq_ok_iff.1 h
  rcases splitResult_cases hresult with ⟨-, -, rfl⟩ | ⟨front, after, name, hsplit, -⟩
  · have htoken : nextToken ['\x7d'] = (['\x7d'], []) := nextToken_self (by decide) (by decide)
    cases tail with
    | true =>
        have hword := hopens.1
        rw [htoken] at hword
        cases hword
    | false =>
        have hword : (nextToken ['\x7d']).1 = op.keyword.toList := congrArg Prod.fst hopens
        rw [htoken] at hword
        have hne : op.keyword.toList ≠ ['\x7d'] := by
          cases op with
          | binary op => cases op <;> decide
          | cast op => cases op <;> decide
          | _ => decide
        exact hne hword.symm
  · have hmem : '=' ∈ ['\x7d'] := by
      rw [hsplit]
      simp
    exact absurd hmem (by decide)

end SsaIr.Instruction
