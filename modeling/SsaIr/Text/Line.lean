import SsaIr.Text.Blank

/-!
# Lines and their comments

A text is cut into lines at its newlines. Within a line, a comment starts at the first
semicolon outside quotes and owns the blanks before it, so code and comment together are
the line again.
-/

namespace SsaIr.Text

/-- The lines of a text: each newline ends one, a carriage return directly before it belongs
to the line end, and a text that ends with a newline has no further, empty line. -/
def lines : List Char → List (List Char)
  | [] => []
  | c :: cs =>
    if c = '\n' then [] :: lines cs
    else if c = '\r' ∧ cs.head? = some '\n' then lines cs
    else consHead c (lines cs)

/-- Cut before the first semicolon outside quotes; `quoted` tells whether the text starts inside
a quotation. -/
def cutComment? (quoted : Bool) : List Char → Option (List Char × List Char)
  | [] => none
  | c :: cs =>
    if c = ';' ∧ quoted = false then some ([], c :: cs)
    else (cutComment? (if c = '"' then !quoted else quoted) cs).map fun (code, comment) =>
      (c :: code, comment)

theorem append_of_cutComment? {quoted : Bool} {line code comment : List Char}
    (h : cutComment? quoted line = some (code, comment)) : code ++ comment = line := by
  induction line generalizing quoted code comment with
  | nil => simp [cutComment?] at h
  | cons c cs ih =>
      simp only [cutComment?] at h
      split at h
      · simp only [Option.some.injEq, Prod.mk.injEq] at h
        obtain ⟨rfl, rfl⟩ := h
        rfl
      · obtain ⟨front, rfl, hfront⟩ := map_cons_eq_some_iff.1 h
        simp [ih hfront]

/-- The blanks at the end. -/
def trailingBlanks (s : List Char) : List Char := (s.reverse.takeWhile isBlank).reverse

theorem trimEnd_append_trailingBlanks (s : List Char) : trimEnd s ++ trailingBlanks s = s := by
  rw [trimEnd, trailingBlanks, ← List.reverse_append, List.takeWhile_append_dropWhile,
    List.reverse_reverse]

/-- The code of a line and its comment, if it has one. -/
def splitComment (line : List Char) : List Char × Option (List Char) :=
  match cutComment? false line with
  | none => (line, none)
  | some (code, comment) => (trimEnd code, some (trailingBlanks code ++ comment))

/-- Nothing of a line is lost by splitting off its comment. -/
theorem splitComment_append (line : List Char) :
    (splitComment line).1 ++ (splitComment line).2.getD [] = line := by
  unfold splitComment
  cases h : cutComment? false line with
  | none => simp
  | some p =>
      obtain ⟨code, comment⟩ := p
      simp only [Option.getD_some]
      rw [← List.append_assoc, trimEnd_append_trailingBlanks, append_of_cutComment? h]

end SsaIr.Text
