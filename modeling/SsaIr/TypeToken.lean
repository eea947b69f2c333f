import SsaIr.Error
import SsaIr.Text.Nesting

/-!
# Type tokens

Types are carried as the text they are written as. A type token is an aggregate in brackets or a
run without blanks and commas, then pointer stars, and then, if a parenthesis follows, the
parameters of a function type with stars of their own.
-/

namespace SsaIr.TypeToken

/-- The type of a block reference. -/
def label : String := "label"

/-- The type of an instruction without a result. -/
def void : String := "void"

/-- The type of a metadata operand. -/
def metadata : String := "metadata"

/-- Whether three points in a row occur. -/
def hasEllipsis : List Char → Bool
  | [] => false
  | c :: cs => ['.', '.', '.'].isPrefixOf (c :: cs) || hasEllipsis cs

/-- Whether a function type takes arguments beyond its parameters. -/
def isVariadic (type : String) : Bool := hasEllipsis type.toList

open Text in
/-- What stands before any parameters: an aggregate or a plain run. -/
def takeHead (s : List Char) : Except ParseError (List Char × List Char) :=
  match s with
  | '[' :: _ | '\x7b' :: _ | '<' :: _ =>
    match takeBracketed? {} s with
    | some (head, rest) =>
      .ok (head ++ rest.takeWhile (· == '*'), rest.dropWhile (· == '*'))
    | none => .error (.unbalancedBrackets (String.ofList s))
  | _ =>
    let stops (c : Char) : Bool := isBlank c || c == ','
    .ok (s.takeWhile (!stops ·), s.dropWhile (!stops ·))

open Text in
/-- The type token at the start, and the text after it with leading blanks dropped. -/
def take (text : List Char) : Except ParseError (List Char × List Char) :=
  let s := trimStart text
  if s.isEmpty then .error (.missingOperand "expected a type")
  else
    match takeHead s with
    | .error e => .error e
    | .ok (head, rest) =>
      match trimStart rest with
      | '(' :: after =>
        match takeBracketed? {} ('(' :: after) with
        | some (params, rest') =>
          .ok (head ++ rest.takeWhile isBlank ++ params ++ rest'.takeWhile (· == '*'),
            trimStart (rest'.dropWhile (· == '*')))
        | none => .error (.unbalancedBrackets (String.ofList s))
      | after => .ok (head, after)

open Text in
theorem append_of_takeHead {s t r : List Char} (h : takeHead s = .ok (t, r)) : t ++ r = s := by
  unfold takeHead at h
  split at h
  case h_4 =>
    simp only [Except.ok.injEq, Prod.mk.injEq] at h
    obtain ⟨rfl, rfl⟩ := h
    exact List.takeWhile_append_dropWhile
  all_goals
    split at h
    · next hs =>
        simp only [Except.ok.injEq, Prod.mk.injEq] at h
        obtain ⟨rfl, rfl⟩ := h
        rw [append_of_takeBracketed? hs, List.append_assoc, List.takeWhile_append_dropWhile]
    · simp at h

open Text in
theorem takeWhile_append_trimStart (s : List Char) : s.takeWhile isBlank ++ trimStart s = s :=
  List.takeWhile_append_dropWhile

open Text in
/-- A type token and what follows it are the text without its leading blanks, up to blanks
between the two. -/
theorem exists_append_of_take {s t r : List Char} (h : take s = .ok (t, r)) :
    ∃ gap, (∀ c ∈ gap, isBlank c = true) ∧ trimStart s = t ++ gap ++ r := by
  unfold take at h
  simp only at h
  split at h
  · simp at h
  · split at h
    · simp at h
    · next head rest hh =>
        have hs := append_of_takeHead hh
        split at h
        · next after ha =>
            split at h
            · next params rest' hp =>
                simp only [Except.ok.injEq, Prod.mk.injEq] at h
                obtain ⟨rfl, rfl⟩ := h
                refine ⟨(rest'.dropWhile (· == '*')).takeWhile isBlank, ?_, ?_⟩
                · exact fun c hc => List.all_eq_true.1 List.all_takeWhile c hc
                · have hp' := append_of_takeBracketed? hp
                  have hr := takeWhile_append_trimStart rest
                  rw [ha, hp'] at hr
                  simp only [List.append_assoc]
                  rw [takeWhile_append_trimStart, List.takeWhile_append_dropWhile, hr, hs]
            · simp at h
        · simp only [Except.ok.injEq, Prod.mk.injEq] at h
          obtain ⟨rfl, rfl⟩ := h
          refine ⟨rest.takeWhile isBlank, ?_, ?_⟩
          · exact fun c hc => List.all_eq_true.1 List.all_takeWhile c hc
          · rw [List.append_assoc, takeWhile_append_trimStart, hs]

theorem length_rest_le_of_take {s t r : List Char} (h : take s = .ok (t, r)) :
    r.length ≤ s.length := by
  obtain ⟨gap, -, hs⟩ := exists_append_of_take h
  have hle : (Text.trimStart s).length ≤ s.length := (List.dropWhile_suffix _).length_le
  rw [hs] at hle
  simp only [List.length_append] at hle
  omega

end SsaIr.TypeToken
