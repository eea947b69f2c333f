/-!
# Decimal numerals

Reading of the decimal numerals that `toString` writes for natural numbers and integers.
-/

namespace SsaIr.Text

/-- A nonempty run of the digits `0` to `9`. -/
def nat? (s : List Char) : Option Nat :=
  if s.isEmpty then none
  else if s.all Char.isDigit then some (Nat.ofDigitChars 10 s 0) else none

/-- Digits with an optional minus sign. -/
def int? : List Char → Option Int
  | '-' :: s => (nat? s).map fun n => -(n : Int)
  | s => (nat? s).map fun n => (n : Int)

/-- Digits with an optional plus sign, below `bound`. -/
def natBelow? (bound : Nat) (s : List Char) : Option Nat :=
  let digits := match s with
    | '+' :: s => s
    | s => s
  (nat? digits).filter (· < bound)

/-- The 64-bit integer of that value, if there is one. -/
def toInt64? (n : Int) : Option Int64 :=
  if -0x8000000000000000 ≤ n ∧ n < 0x8000000000000000 then some (Int64.ofInt n) else none

/-- An unsigned 32-bit numeral. -/
def uint32? (s : List Char) : Option UInt32 := (natBelow? 0x100000000 s).map UInt32.ofNat

end SsaIr.Text
