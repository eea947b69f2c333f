/-!
# Positions

An instruction of a function is addressed by the index of its block and its index there.
-/

namespace SsaIr

structure Position where
  block : Nat
  index : Nat
  deriving DecidableEq, Inhabited

/-- Written as the two indices with a point between. -/
def Position.text (p : Position) : String :=
  toString p.block ++ "." ++ toString p.index

end SsaIr
