import SsaIr.Text.Blank

/-!
# Bracket nesting

Round, square, curly and angle brackets nest, and all four kinds count alike; between double
quotes nothing counts. One scan state serves every question asked about nesting: where a
character stands at the top level, where a bracket closes, and which commas separate.
-/

namespace SsaIr.Text

/-- The brackets open at a point of a text, and whether that point is quoted. -/
structure Nesting where
  depth : Int := 0
  quoted : Bool := false
  deriving DecidableEq, Inhabited

def isOpening (c : Char) : Bool := c == '(' || c == '[' || c == '{' || c == '<'

def isClosing (c : Char) : Bool := c == ')' || c == ']' || c == '}' || c == '>'

namespace Nesting

/-- The state after one more character. -/
def step (n : Nesting) (c : Char) : Nesting :=
  if c = '"' then { n with quoted := !n.quoted }
  else if n.quoted then n
  else if isOpening c then { n with depth := n.depth + 1 }
  else if isClosing c then { n with depth := n.depth - 1 }
  else n

/-- Neither quoted nor inside a bracket. -/
def isTop (n : Nesting) : Bool := n.depth == 0 && !n.quoted

/-- The state after a whole text. -/
def run (n : Nesting) (s : List Char) : Nesting := s.foldl step n

@[simp] theorem run_nil (n : Nesting) : n.run [] = n := rfl

@[simp] theorem run_cons (n : Nesting) (c : Char) (s : List Char) :
    n.run (c :: s) = (n.step c).run s := rfl

theorem run_append (n : Nesting) (s t : List Char) : n.run (s ++ t) = (n.run s).run t :=
  List.foldl_append

end Nesting

/-- The parts of a text on either side of the first `target` at the top level. -/
def splitAtTop? (target : Char) (n : Nesting) : List Char → Option (List Char × List Char)
  | [] => none
  | c :: cs =>
    if c = target ∧ n.isTop then some ([], cs)
    else (splitAtTop? target (n.step c) cs).map fun (a, b) => (c :: a, b)

/-- What stands at the first bracket, through its matching close, and the rest. -/
def takeBracketed? (n : Nesting) : List Char → Option (List Char × List Char)
  | [] => none
  | c :: cs =>
    let m := n.step c
    if isClosing c ∧ n.quoted = false ∧ m.depth = 0 then some ([c], cs)
    else (takeBracketed? m cs).map fun (a, b) => (c :: a, b)

/-- Cut at the commas of the top level; none if the brackets or quotes do not balance. -/
def segments? (n : Nesting) : List Char → Option (List (List Char))
  | [] => if n.isTop then some [[]] else none
  | c :: cs =>
    if c = ',' ∧ n.isTop then (segments? n cs).map ([] :: ·)
    else
      let m := n.step c
      if m.depth < 0 then none else (segments? m cs).map (consHead c)

/-- The trimmed parts between top-level commas; a blank text has none. -/
def splitTop? (s : List Char) : Option (List (List Char)) :=
  if allBlank s then some [] else (segments? {} s).map (·.map trim)

theorem append_of_splitAtTop? {target : Char} {n : Nesting} {s a b : List Char}
    (h : splitAtTop? target n s = some (a, b)) : s = a ++ target :: b := by
  induction s generalizing n a with
  | nil => simp [splitAtTop?] at h
  | cons c cs ih =>
      simp only [splitAtTop?] at h
      split at h
      · next hc =>
          simp only [Option.some.injEq, Prod.mk.injEq] at h
          obtain ⟨rfl, rfl⟩ := h
          simp [hc.1]
      · obtain ⟨front, rfl, hfront⟩ := map_cons_eq_some_iff.1 h
        simp [ih hfront]

theorem append_of_takeBracketed? {n : Nesting} {s a b : List Char}
    (h : takeBracketed? n s = some (a, b)) : s = a ++ b := by
  induction s generalizing n a with
  | nil => simp [takeBracketed?] at h
  | cons c cs ih =>
      simp only [takeBracketed?] at h
      split at h
      · simp only [Option.some.injEq, Prod.mk.injEq] at h
        obtain ⟨rfl, rfl⟩ := h
        rfl
      · obtain ⟨front, rfl, hfront⟩ := map_cons_eq_some_iff.1 h
        simp [ih hfront]

theorem length_trim_le (s : List Char) : (trim s).length ≤ s.length := by
  have h₁ : (trimStart s).length ≤ s.length := (List.dropWhile_suffix _).length_le
  have h₂ : (trimEnd (trimStart s)).length ≤ (trimStart s).length := by
    rw [trimEnd, List.length_reverse]
    exact Nat.le_trans (List.dropWhile_suffix _).length_le (by simp)
  exact Nat.le_trans h₂ h₁

theorem length_le_of_mem_consHead {α : Type} {a : α} {pieces : List (List α)} {n : Nat}
    (h : ∀ p ∈ pieces, p.length ≤ n) : ∀ p ∈ consHead a pieces, p.length ≤ n + 1 := by
  cases pieces with
  | nil => simp [consHead]
  | cons q qs =>
      simp only [consHead, List.forall_mem_cons, List.length_cons] at h ⊢
      exact ⟨by omega, fun p hp => Nat.le_succ_of_le (h.2 p hp)⟩

theorem length_le_of_mem_segments? {n : Nesting} {s : List Char} {pieces : List (List Char)}
    (h : segments? n s = some pieces) : ∀ p ∈ pieces, p.length ≤ s.length := by
  induction s generalizing n pieces with
  | nil =>
      simp only [segments?, Option.ite_none_right_eq_some, Option.some.injEq] at h
      simp [← h.2]
  | cons c cs ih =>
      simp only [segments?] at h
      split at h
      · obtain ⟨qs, hq, rfl⟩ := Option.map_eq_some_iff.1 h
        simp only [List.forall_mem_cons, List.length_nil, Nat.zero_le, true_and]
        exact fun p hp => Nat.le_succ_of_le (ih hq p hp)
      · split at h
        · simp at h
        · obtain ⟨qs, hq, rfl⟩ := Option.map_eq_some_iff.1 h
          exact length_le_of_mem_consHead (ih hq)

theorem length_le_of_mem_splitTop? {s : List Char} {pieces : List (List Char)}
    (h : splitTop? s = some pieces) {p : List Char} (hp : p ∈ pieces) :
    p.length ≤ s.length := by
  simp only [splitTop?] at h
  split at h
  · simp only [Option.some.injEq] at h
    subst h
    simp at hp
  · obtain ⟨qs, hq, rfl⟩ := Option.map_eq_some_iff.1 h
    obtain ⟨q, hqm, rfl⟩ := List.mem_map.1 hp
    exact Nat.le_trans (length_trim_le q) (length_le_of_mem_segments? hq q hqm)

end SsaIr.Text
