/-!
Binary floating-point numbers of 64 bits. The finite numbers of one sign are counted in order of
size: rank zero is zero, rank one the least positive number, and each next rank the next number.
All finite numbers are whole multiples of the least positive one.
-/

namespace LispCompiler

namespace Double

def blockSize : Nat :=
  0x10000000000000

def finiteCount : Nat :=
  2047 * blockSize

def unitsPerOne : Nat :=
  Nat.pow 2 1074

end Double

inductive Double where
  | finite (negative : Bool) (rank : Fin Double.finiteCount)
  | infinite (negative : Bool)
  | nan
  deriving DecidableEq, Repr

namespace Double

/-- The distance between neighbours is a power of two with this exponent. It grows by one with every
block of ranks, from the third on. -/
def unitExponent (rank : Nat) : Nat :=
  rank / blockSize - 1

/-- The size of the double of a rank, in multiples of the least positive double. -/
def units (rank : Nat) : Nat :=
  (rank - unitExponent rank * blockSize) * Nat.pow 2 (unitExponent rank)

def signBit : Nat :=
  0x8000000000000000

def signed (negative : Bool) (magnitude : Nat) : UInt64 :=
  .ofNat (if negative then signBit + magnitude else magnitude)

def toBits : Double → UInt64
  | finite negative rank => signed negative rank
  | infinite negative => signed negative finiteCount
  | nan => 0x7ff8000000000000

def ofBits (bits : UInt64) : Double :=
  let negative := signBit ≤ bits.toNat
  let magnitude := bits.toNat % signBit
  if inRange : magnitude < finiteCount then .finite negative ⟨magnitude, inRange⟩
  else if magnitude = finiteCount then .infinite negative
  else .nan

end Double

end LispCompiler
