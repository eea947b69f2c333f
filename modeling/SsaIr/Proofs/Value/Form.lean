import SsaIr.Proofs.Except
import SsaIr.Proofs.Regularity
import SsaIr.Proofs.Text.Identifier
import SsaIr.Proofs.TypeToken
import SsaIr.Value.Parser

/-!
# How values are spelled

The spellings that a bare operand is read from, one for each kind of value, and the spellings that
values are written as. What holds of all values that are read is shown by one induction: for the
values that are read from one spelling, and for operations whose operands are read.
-/

namespace SsaIr

open Text

variable {scope : List String} {type : String} {c : Char} {s text inside front : List Char}
  {ws : List (List Char)} {n : String} {f : Value.Form}

/-- An operation on constants is words in lower case with parentheses behind them. -/
theorem constantExpression?_eq_some_iff :
    constantExpression? s = some (ws, inside) ↔
      ∃ front, s = front ++ '(' :: (inside ++ [')']) ∧ front.head?.any Char.isLower = true ∧
        (∀ c ∈ front, c.isLower = true ∨ isBlank c = true) ∧ '\n' ∉ inside ∧
        words front = ws := by
  have hparen : ∀ front : List Char, (∀ c ∈ front, c.isLower = true ∨ isBlank c = true) →
      '(' ∉ front := by
    intro front hfront hmem
    rcases hfront _ hmem with h | h <;> cases h
  constructor
  · intro h
    unfold constantExpression? at h
    split at h
    · cases h
    · next front rest hsplit =>
        split at h
        · cases h
        · next inside' hbefore =>
            rw [Option.ite_none_right_eq_some] at h
            obtain ⟨⟨hhead, hall, hnewline⟩, he⟩ := h
            obtain ⟨rfl, rfl⟩ := Prod.mk.inj (Option.some.inj he)
            obtain ⟨hs, -⟩ := splitAt?_eq_some_iff.1 hsplit
            rw [before?_eq_some_iff.1 hbefore] at hs
            refine ⟨front, hs, hhead, ?_, hnewline, rfl⟩
            simpa using hall
  · rintro ⟨front, rfl, hhead, hall, hnewline, rfl⟩
    have hsplit := splitAt?_eq_some_iff.2
      ⟨(rfl : front ++ '(' :: (inside ++ [')']) = _), hparen front hall⟩
    have hbefore : before? [')'] (inside ++ [')']) = some inside := before?_eq_some_iff.2 rfl
    have hall' : front.all (fun c => c.isLower || isBlank c) = true := by simpa using hall
    unfold constantExpression?
    rw [hsplit]
    dsimp only
    rw [hbefore]
    dsimp only
    rw [if_pos ⟨hhead, hall', hnewline⟩]

/-- An operation on constants starts in lower case. -/
theorem head?_ne_of_constantExpression? (h : constantExpression? s = some (ws, inside))
    (hc : c.isLower = false) : s.head? ≠ some c := by
  obtain ⟨front, rfl, hhead, -, -, -⟩ := constantExpression?_eq_some_iff.1 h
  cases front with
  | nil => cases hhead
  | cons d front =>
      intro hsame
      obtain rfl := Option.some.inj hsame
      rw [List.head?_cons, Option.any_some, hc] at hhead
      cases hhead

namespace Value

/-- The spellings of bare operands without blanks around them. -/
inductive Spells (scope : List String) (type : String) : List Char → Form → Prop where
  | metadata {s : List Char} (h : s.head? = some '!') :
      Spells scope type s (.value (.metadata (String.ofList s)))
  | label {rest : List Char} {n : String} (h : sigilName? '%' (trim rest) = some n) :
      Spells scope type ("label ".toList ++ rest) (.value (.label n))
  | int {s : List Char} (h : isIdentifier s = true) (value : Int64) :
      Spells scope type s (.value (.int value type))
  | localName {n : String} (h : isIdentifier n.toList = true) :
      Spells scope type ('%' :: n.toList) (.value (ofLocalName scope n type))
  | global {n : String} (h : isIdentifier n.toList = true) :
      Spells scope type ('@' :: n.toList) (.value (.global n type))
  | data (s : List Char) :
      Spells scope type ('c' :: '"' :: s) (.value (.data (String.ofList ('c' :: '"' :: s)) type))
  | expr {s inside : List Char} {ws : List (List Char)}
      (h : constantExpression? s = some (ws, inside)) :
      Spells scope type s (.expr (" ".intercalate (ws.map String.ofList)) inside)

theorem spells_of_formOfSymbol (h : formOfSymbol scope s type = .ok f) :
    Spells scope type s f := by
  unfold formOfSymbol at h
  split at h
  · split at h
    · next hname =>
        obtain ⟨hs, hident⟩ := sigilName?_eq_some hname
        obtain rfl := Except.ok.inj h
        rw [hs]
        exact .localName hident
    · cases h
  · split at h
    · next hname =>
        obtain ⟨hs, hident⟩ := sigilName?_eq_some hname
        obtain rfl := Except.ok.inj h
        rw [hs]
        exact .global hident
    · cases h
  · obtain rfl := Except.ok.inj h
    exact .data _
  · split at h
    · next hexpr =>
        obtain rfl := Except.ok.inj h
        exact .expr hexpr
    · cases h

/-- A bare operand has one of the spellings. -/
theorem spells_of_form (h : form scope text type = .ok f) :
    Solid (trim text) ∧ Spells scope type (trim text) f := by
  unfold form at h
  dsimp only at h
  split at h
  · cases h
  · next hempty =>
      have hsolid : Solid (trim text) := solid_trim fun hnil => hempty (by rw [hnil]; rfl)
      refine ⟨hsolid, ?_⟩
      split at h
      · next hhead =>
          obtain rfl := Except.ok.inj h
          exact .metadata hhead
      · split at h
        · next rest hlabel =>
            rw [after?_eq_some_iff.1 hlabel]
            unfold parseLabel at h
            split at h
            · next hname =>
                obtain rfl := Except.ok.inj h
                exact .label hname
            · cases h
        · split at h
          · next htrue =>
              obtain rfl := Except.ok.inj h
              exact .int (by rw [htrue]; rfl) 1
          · split at h
            · next hfalse =>
                obtain rfl := Except.ok.inj h
                exact .int (by rw [hfalse]; rfl) 0
            · split at h
              · next hint =>
                  split at h
                  · obtain rfl := Except.ok.inj h
                    exact .int (isIdentifier_of_int? hint) _
                  · cases h
              · exact spells_of_formOfSymbol h

/-! ## Reading what was written -/

theorem form_metadata (hs : Solid s) (h : s.head? = some '!') :
    form scope s type = .ok (.value (.metadata (String.ofList s))) := by
  have hempty : s.isEmpty = false := List.isEmpty_eq_false_iff.2 hs.ne_nil
  unfold form
  rw [hs.trim_eq]
  dsimp only
  rw [hempty, if_neg Bool.false_ne_true, if_pos h]

theorem after?_of_unbroken {lead : List Char} (h : Unbroken s) (hlead : ' ' ∈ lead) :
    after? lead s = none := by
  cases hs : after? lead s with
  | none => rfl
  | some rest =>
      rw [after?_eq_some_iff.1 hs] at h
      exact absurd (h ' ' (List.mem_append_left rest hlead)) (by decide)

theorem form_int (value : Int64) :
    form scope (toString value.toInt).toList type = .ok (.value (.int value type)) := by
  have hread := int?_toString value.toInt
  set s := (toString value.toInt).toList with hs
  have hident : isIdentifier s = true := isIdentifier_of_int? hread
  have hunbroken := unbroken_of_isIdentifier hident
  have hsolid : Solid s := .of_unbroken hunbroken (ne_nil_of_isIdentifier hident)
  have hempty : s.isEmpty = false := List.isEmpty_eq_false_iff.2 hsolid.ne_nil
  have hhead : s.head? ≠ some '!' := fun h =>
    not_mem_of_isIdentifier hident (c := '!') rfl (List.mem_of_mem_head? h)
  have htrue : s ≠ "true".toList := by
    intro h
    rw [h] at hread
    cases hread
  have hfalse : s ≠ "false".toList := by
    intro h
    rw [h] at hread
    cases hread
  unfold form
  rw [hsolid.trim_eq]
  dsimp only
  rw [hempty, if_neg Bool.false_ne_true, if_neg hhead, after?_of_unbroken hunbroken (by decide)]
  dsimp only
  rw [if_neg htrue, if_neg hfalse, hread]
  dsimp only
  rw [toInt64?_toInt]

/-- What is no metadata, no label and no identifier is read as a symbol. -/
theorem form_symbol (hs : Solid s) (hmetadata : s.head? ≠ some '!')
    (hlabel : after? "label ".toList s = none) (hident : isIdentifier s = false) :
    form scope s type = formOfSymbol scope s type := by
  have hempty : s.isEmpty = false := List.isEmpty_eq_false_iff.2 hs.ne_nil
  have htrue : s ≠ "true".toList := by
    rintro rfl
    cases hident
  have hfalse : s ≠ "false".toList := by
    rintro rfl
    cases hident
  have hint : int? s = none := by
    cases h : int? s with
    | none => rfl
    | some value =>
        rw [isIdentifier_of_int? h] at hident
        cases hident
  unfold form
  rw [hs.trim_eq]
  dsimp only
  rw [hempty, if_neg Bool.false_ne_true, if_neg hmetadata, hlabel]
  dsimp only
  rw [if_neg htrue, if_neg hfalse, hint]

theorem isIdentifier_cons_of_not (h : isIdentifierChar c = false) :
    isIdentifier (c :: s) = false := by
  rw [isIdentifier, List.all_cons, h, Bool.false_and, Bool.and_false]

theorem solid_cons_of_isIdentifier (hc : isBlank c = false) (h : isIdentifier s = true) :
    Solid (c :: s) ∧ Unbroken (c :: s) := by
  have hunbroken : Unbroken (c :: s) := by
    intro d hd
    rcases List.mem_cons.1 hd with rfl | hd
    · exact hc
    · exact unbroken_of_isIdentifier h d hd
  exact ⟨.of_unbroken hunbroken (List.cons_ne_nil c s), hunbroken⟩

theorem form_localName (h : isIdentifier n.toList = true) :
    form scope ('%' :: n.toList) type = .ok (.value (ofLocalName scope n type)) := by
  obtain ⟨hsolid, hunbroken⟩ := solid_cons_of_isIdentifier (c := '%') rfl h
  rw [form_symbol hsolid (by simp) (after?_of_unbroken hunbroken (by decide))
    (isIdentifier_cons_of_not rfl), formOfSymbol, sigilName?_cons h]

theorem form_global (h : isIdentifier n.toList = true) :
    form scope ('@' :: n.toList) type = .ok (.value (.global n type)) := by
  obtain ⟨hsolid, hunbroken⟩ := solid_cons_of_isIdentifier (c := '@') rfl h
  rw [form_symbol hsolid (by simp) (after?_of_unbroken hunbroken (by decide))
    (isIdentifier_cons_of_not rfl), formOfSymbol, sigilName?_cons h]

theorem form_data (hs : Solid ('c' :: '"' :: s)) :
    form scope ('c' :: '"' :: s) type =
      .ok (.value (.data (String.ofList ('c' :: '"' :: s)) type)) := by
  have hident : isIdentifier ('c' :: '"' :: s) = false := by
    rw [Bool.eq_false_iff]
    intro h
    exact not_mem_of_isIdentifier h (c := '"') rfl (by simp)
  rw [form_symbol hs (by simp) rfl hident]
  rfl

theorem form_label (h : isIdentifier n.toList = true) :
    form scope ("label %".toList ++ n.toList) type = .ok (.value (.label n)) := by
  obtain ⟨hname, -⟩ := solid_cons_of_isIdentifier (c := '%') rfl h
  have hsplit : "label %".toList ++ n.toList = "label ".toList ++ '%' :: n.toList := by simp
  have hsolid : Solid ("label ".toList ++ '%' :: n.toList) := .append (by decide) hname.last
  have hlabel : after? "label ".toList ("label ".toList ++ '%' :: n.toList) =
      some ('%' :: n.toList) := after?_eq_some_iff.2 rfl
  have hempty : ("label ".toList ++ '%' :: n.toList).isEmpty = false :=
    List.isEmpty_eq_false_iff.2 hsolid.ne_nil
  have hhead : ("label ".toList ++ '%' :: n.toList).head? ≠ some '!' := by simp
  unfold form
  rw [hsplit, hsolid.trim_eq]
  dsimp only
  rw [hempty, if_neg Bool.false_ne_true, if_neg hhead, hlabel]
  dsimp only
  rw [hname.trim_eq, parseLabel, sigilName?_cons h]
  rfl

theorem form_expr (hs : Solid s) (h : constantExpression? s = some (ws, inside))
    (hlabel : after? "label ".toList s = none) :
    form scope s type = .ok (.expr (" ".intercalate (ws.map String.ofList)) inside) := by
  obtain ⟨front, hsplit, hhead, hall, -, -⟩ := constantExpression?_eq_some_iff.1 h
  have hident : isIdentifier s = false := by
    rw [Bool.eq_false_iff]
    intro hs
    refine not_mem_of_isIdentifier hs (c := '(') rfl ?_
    rw [hsplit]
    simp
  obtain ⟨c, rest, hfront⟩ : ∃ c rest, front = c :: rest := by
    cases front with
    | nil => cases hhead
    | cons c rest => exact ⟨c, rest, rfl⟩
  rw [hfront] at hsplit hhead hall
  have hne : ∀ d, d.isLower = false → c ≠ d := by
    rintro d hd rfl
    rw [List.head?_cons, Option.any_some, hd] at hhead
    cases hhead
  rw [form_symbol hs (head?_ne_of_constantExpression? h rfl) hlabel hident]
  unfold formOfSymbol
  split
  · exact absurd (List.cons.inj hsplit).1.symm (hne '%' rfl)
  · exact absurd (List.cons.inj hsplit).1.symm (hne '@' rfl)
  · next rest' =>
      exfalso
      have hquote := (List.cons.inj hsplit).2
      cases rest with
      | nil => cases (List.cons.inj hquote).1
      | cons d rest =>
          obtain rfl := (List.cons.inj hquote).1
          rcases hall '"' (by simp) with hlower | hblank
          · cases hlower
          · cases hblank
  · rw [h]

/-! ## Induction on what is read -/

variable {v : Value}

/-- An operation is spelled as one. -/
theorem exists_of_form_expr {opcode : String} (h : form scope s type = .ok (.expr opcode inside)) :
    ∃ ws, constantExpression? (trim s) = some (ws, inside) ∧
      opcode = " ".intercalate (ws.map String.ofList) := by
  obtain ⟨-, hspells⟩ := spells_of_form h
  generalize hf : Form.expr opcode inside = f at hspells
  generalize trim s = t at hspells ⊢
  cases hspells with
  | expr hexpr =>
      obtain ⟨rfl, rfl⟩ := Form.expr.inj hf
      exact ⟨_, hexpr, rfl⟩
  | _ => cases hf

/-- What holds of values with one spelling, and of operations if it holds of all values that are
read from texts no longer than the list of their operands, holds of all values that are read. -/
theorem parse_induction {motive : List Char → String → Value → Prop}
    (bare : ∀ s type v, form scope s type = .ok (.value v) → motive s type v)
    (operation : ∀ s type ws inside vs, constantExpression? (trim s) = some (ws, inside) →
      parseTypedList scope inside = .ok vs →
      (∀ r type v, r.length ≤ inside.length → parse scope r type = .ok v → motive r type v) →
      motive s type (expr (" ".intercalate (ws.map String.ofList)) vs type))
    (h : parse scope s type = .ok v) : motive s type v := by
  obtain ⟨n, hn⟩ : ∃ n, s.length = n := ⟨_, rfl⟩
  induction n using Nat.strongRecOn generalizing s type v with
  | ind n ih =>
      rw [parse_eq] at h
      split at h
      · cases h
      · next hform =>
          obtain rfl := Except.ok.inj h
          exact bare s type _ hform
      · next opcode inside hform =>
          obtain ⟨vs, hvs, rfl⟩ := map_eq_ok_iff.1 h
          obtain ⟨ws, hexpr, rfl⟩ := exists_of_form_expr hform
          have hlength := length_lt_of_form hform
          refine operation s type ws inside vs hexpr hvs fun r type v hr hparse => ?_
          exact ih r.length (by omega) hparse rfl

end Value

end SsaIr
