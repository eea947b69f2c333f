/-!
# Blank characters

A blank is a character with the Unicode property White_Space. Texts are trimmed of blanks,
cut into words between blanks, and read token by token.
-/

namespace SsaIr.Text

/-- The characters with the Unicode property White_Space. -/
def isBlank (c : Char) : Bool :=
  let n := c.toNat
  (9 ≤ n && n ≤ 13) || n == 0x20 || n == 0x85 || n == 0xA0 || n == 0x1680 ||
    (0x2000 ≤ n && n ≤ 0x200A) || n == 0x2028 || n == 0x2029 || n == 0x202F ||
    n == 0x205F || n == 0x3000

/-- Drop the blanks at the start. -/
def trimStart (s : List Char) : List Char := s.dropWhile isBlank

/-- Drop the blanks at the end. -/
def trimEnd (s : List Char) : List Char := (s.reverse.dropWhile isBlank).reverse

/-- Drop the blanks at both ends. -/
def trim (s : List Char) : List Char := trimEnd (trimStart s)

/-- Whether there is nothing but blanks. -/
def allBlank (s : List Char) : Bool := s.all isBlank

/-- The first token and, with leading blanks dropped, what follows it. -/
def nextToken (s : List Char) : List Char × List Char :=
  let s := trimStart s
  (s.takeWhile (!isBlank ·), trimStart (s.dropWhile (!isBlank ·)))

/-- A token and what follows it take their place in the text. -/
theorem length_nextToken_le (s : List Char) :
    (nextToken s).1.length + (nextToken s).2.length ≤ s.length := by
  have h₁ : (trimStart s).length ≤ s.length := (List.dropWhile_suffix _).length_le
  have h₂ := congrArg List.length
    (List.takeWhile_append_dropWhile (p := (!isBlank ·)) (l := trimStart s))
  have h₃ : (trimStart ((trimStart s).dropWhile (!isBlank ·))).length ≤
      ((trimStart s).dropWhile (!isBlank ·)).length := (List.dropWhile_suffix _).length_le
  simp only [nextToken]
  rw [List.length_append] at h₂
  omega

/-- Put a character in front of the first piece, opening one if there is none. -/
def consHead {α : Type} (a : α) : List (List α) → List (List α)
  | [] => [[a]]
  | piece :: pieces => (a :: piece) :: pieces

/-- The maximal runs of characters that do not separate. -/
def runs (separates : Char → Bool) : List Char → List (List Char)
  | [] => []
  | c :: cs =>
    if separates c then runs separates cs
    else if cs.head?.all separates then [c] :: runs separates cs
    else consHead c (runs separates cs)

/-- The maximal runs of characters that are not blank. -/
def words (s : List Char) : List (List Char) := runs isBlank s

/-- What follows `lead` in a text that starts with it. -/
def after? : (lead s : List Char) → Option (List Char)
  | [], s => some s
  | _ :: _, [] => none
  | c :: lead, d :: s => if c = d then after? lead s else none

theorem after?_eq_some_iff {lead s rest : List Char} :
    after? lead s = some rest ↔ s = lead ++ rest := by
  induction lead generalizing s with
  | nil => simp [after?]
  | cons c lead ih =>
      cases s with
      | nil => simp [after?]
      | cons d s =>
          by_cases h : c = d
          · simp [after?, h, ih]
          · simp [after?, h, Ne.symm h]

/-- What precedes `tail` in a text that ends with it. -/
def before? (tail s : List Char) : Option (List Char) :=
  (after? tail.reverse s.reverse).map List.reverse

theorem before?_eq_some_iff {tail s rest : List Char} :
    before? tail s = some rest ↔ s = rest ++ tail := by
  simp only [before?, Option.map_eq_some_iff, after?_eq_some_iff]
  constructor
  · rintro ⟨r, h, rfl⟩
    simpa using congrArg List.reverse h
  · rintro rfl
    exact ⟨rest.reverse, by simp, by simp⟩

/-- What a scan found behind a character, found with the character in front. -/
theorem map_cons_eq_some_iff {c : Char} {found : Option (List Char × List Char)}
    {a b : List Char} :
    (found.map fun (front, back) => (c :: front, back)) = some (a, b) ↔
      ∃ front, a = c :: front ∧ found = some (front, b) := by
  cases found with
  | none => simp
  | some p =>
      obtain ⟨x, y⟩ := p
      constructor
      · intro h
        obtain ⟨rfl, rfl⟩ := Prod.mk.inj (Option.some.inj h)
        exact ⟨x, rfl, rfl⟩
      · rintro ⟨front, rfl, h⟩
        obtain ⟨rfl, rfl⟩ := Prod.mk.inj (Option.some.inj h)
        rfl

/-- The parts of a text on either side of its first `c`. -/
def splitAt? (c : Char) : List Char → Option (List Char × List Char)
  | [] => none
  | d :: s => if d = c then some ([], s) else (splitAt? c s).map fun (a, b) => (d :: a, b)

theorem splitAt?_eq_some_iff {c : Char} {s a b : List Char} :
    splitAt? c s = some (a, b) ↔ s = a ++ c :: b ∧ c ∉ a := by
  induction s generalizing a with
  | nil => simp [splitAt?]
  | cons d s ih =>
      by_cases h : d = c
      · subst h
        cases a with
        | nil => simp [splitAt?]
        | cons e a =>
            simp only [splitAt?, if_true, Option.some.injEq, Prod.mk.injEq, List.cons_append,
              List.cons.injEq, List.mem_cons, not_or]
            constructor
            · rintro ⟨h, -⟩
              exact absurd h (by simp)
            · rintro ⟨⟨rfl, -⟩, h, -⟩
              exact absurd rfl h
      · cases a with
        | nil => simp [splitAt?, h]
        | cons e a =>
            simp only [splitAt?, h, if_false, map_cons_eq_some_iff, List.cons.injEq,
              List.cons_append, List.mem_cons, not_or]
            constructor
            · rintro ⟨front, ⟨rfl, rfl⟩, hfront⟩
              obtain ⟨rfl, hc⟩ := ih.1 hfront
              exact ⟨⟨rfl, rfl⟩, Ne.symm h, hc⟩
            · rintro ⟨⟨rfl, rfl⟩, -, hc⟩
              exact ⟨a, ⟨rfl, rfl⟩, ih.2 ⟨rfl, hc⟩⟩

/-- The parts of a text on either side of the last occurrence of `sep`. -/
def splitAtLast? (sep : List Char) : List Char → Option (List Char × List Char)
  | [] => (after? sep []).map ([], ·)
  | c :: cs =>
    match splitAtLast? sep cs with
    | some (a, b) => some (c :: a, b)
    | none => (after? sep (c :: cs)).map ([], ·)

end SsaIr.Text
