import LispCompiler.Double

namespace LispCompiler.Double

def roundDiv (num den : Nat) : Nat :=
  let quotient := num / den
  let remainder := num % den
  if 2 * remainder < den then quotient
  else if den < 2 * remainder then quotient + 1
  else quotient + quotient % 2

/-- The rank nearest to `num / den`, past `finiteCount` where that is too large for a double. -/
def nearestRank (num den : Nat) : Nat :=
  let scaled := num * unitsPerOne
  let exponent := (scaled / den).log2 - 52
  exponent * blockSize + roundDiv scaled (den * Nat.pow 2 exponent)

def ofRatio? (negative : Bool) (num den : Nat) : Option Double :=
  let rank := nearestRank num den
  if inRange : rank < finiteCount then some (.finite negative ⟨rank, inRange⟩) else none

end LispCompiler.Double
