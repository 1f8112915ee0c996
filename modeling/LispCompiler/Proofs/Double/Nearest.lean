import Mathlib
import LispCompiler.Double.Nearest

/-!
Rounding to doubles. Main statements: the rank that is computed for a ratio is the one whose double is
nearest to it, and the even one of two that are equally near; there is no other. A ratio is too large for
a double from the midpoint behind the largest one on.
-/

namespace LispCompiler.Double

section Units

variable {exponent significand rank : Nat}

theorem blockSize_eq : blockSize = 2 ^ 52 := by
  norm_num [blockSize]

/-- Every rank is a number of blocks and a significand, which is of full length behind a block. -/
theorem unitExponent_eq (normal : exponent = 0 ∨ blockSize ≤ significand)
    (short : significand < 2 * blockSize) :
    unitExponent (exponent * blockSize + significand) = exponent := by
  unfold unitExponent blockSize at *
  omega

theorem units_eq (normal : exponent = 0 ∨ blockSize ≤ significand)
    (short : significand ≤ 2 * blockSize) :
    units (exponent * blockSize + significand) = significand * 2 ^ exponent := by
  rcases Nat.lt_or_eq_of_le short with below | rfl
  · rw [units, unitExponent_eq normal below, Nat.add_sub_cancel_left, Nat.pow_eq]
  · have carried : exponent * blockSize + 2 * blockSize = (exponent + 1) * blockSize + blockSize := by
      ring
    have positive : blockSize < 2 * blockSize := by decide
    rw [carried, units, unitExponent_eq (.inr le_rfl) positive, Nat.add_sub_cancel_left, Nat.pow_eq,
      pow_succ]
    ring

theorem units_mul (den : Nat) (normal : exponent = 0 ∨ blockSize ≤ significand)
    (short : significand ≤ 2 * blockSize) :
    units (exponent * blockSize + significand) * den = significand * (den * 2 ^ exponent) := by
  rw [units_eq normal short]
  ring

theorem exists_significand (rank : Nat) :
    ∃ significand, rank = unitExponent rank * blockSize + significand ∧
      (unitExponent rank = 0 ∨ blockSize ≤ significand) ∧ significand < 2 * blockSize := by
  refine ⟨rank - unitExponent rank * blockSize, ?_⟩
  unfold unitExponent blockSize
  omega

theorem units_succ (rank : Nat) : units (rank + 1) = units rank + 2 ^ unitExponent rank := by
  rcases exists_significand rank with ⟨significand, whole, normal, short⟩
  generalize unitExponent rank = exponent at *
  have normalNext : exponent = 0 ∨ blockSize ≤ significand + 1 := by omega
  rw [whole, Nat.add_assoc, units_eq normal short.le, units_eq normalNext short, Nat.add_mul, one_mul]

theorem units_strictMono : StrictMono units := by
  apply strictMono_nat_of_lt_succ
  intro rank
  rw [units_succ]
  exact Nat.lt_add_of_pos_right (by positivity)

theorem units_zero : units 0 = 0 := by
  decide

end Units

section RoundDiv

variable {num den bound : Nat}

/-- The quotient is off by at most a half, and by a half only where it is even. -/
theorem roundDiv_spec (num : Nat) (positive : 0 < den) :
    2 * (roundDiv num den * den) ≤ 2 * num + den ∧ 2 * num ≤ 2 * (roundDiv num den * den) + den ∧
      (2 * (roundDiv num den * den) = 2 * num + den ∨ 2 * num = 2 * (roundDiv num den * den) + den →
        roundDiv num den % 2 = 0) := by
  have whole : num / den * den + num % den = num := Nat.div_add_mod' num den
  have short : num % den < den := Nat.mod_lt num positive
  unfold roundDiv
  generalize num % den = remainder at *
  generalize num / den = quotient at *
  dsimp only
  have next : (quotient + 1) * den = quotient * den + den := Nat.succ_mul quotient den
  split
  · omega
  split
  · rw [next]
    omega
  rcases Nat.mod_two_eq_zero_or_one quotient with even | odd
  · rw [even, Nat.add_zero]
    omega
  · rw [odd, next]
    omega

theorem le_roundDiv (positive : 0 < den) (fits : bound * den ≤ num) : bound ≤ roundDiv num den := by
  have upper := (roundDiv_spec num positive).2.1
  by_contra low
  have whole : (roundDiv num den + 1) * den ≤ bound * den := Nat.mul_le_mul_right den (by omega)
  rw [Nat.add_mul] at whole
  omega

theorem roundDiv_le (positive : 0 < den) (fits : num ≤ bound * den) : roundDiv num den ≤ bound := by
  have lower := (roundDiv_spec num positive).1
  by_contra high
  have whole : (bound + 1) * den ≤ roundDiv num den * den := Nat.mul_le_mul_right den (by omega)
  rw [Nat.add_mul] at whole
  omega

end RoundDiv

section NearestRank

variable {num den rank other : Nat} {ratio : ℚ}

def size (rank : Nat) : ℚ :=
  units rank / unitsPerOne

/-- A ratio lies between the midpoints to the neighbours of a rank, and on one of them only where the
rank is even. -/
structure IsNearest (rank : Nat) (ratio : ℚ) : Prop where
  lower : size (rank - 1) + size rank ≤ 2 * ratio
  upper : 2 * ratio ≤ size rank + size (rank + 1)
  even_of_tie : 2 * ratio = size (rank - 1) + size rank ∨ 2 * ratio = size rank + size (rank + 1) →
    rank % 2 = 0

theorem unitsPerOne_pos : 0 < unitsPerOne := by
  decide +kernel

theorem size_strictMono : StrictMono size := by
  intro rank other less
  unfold size
  exact div_lt_div_of_pos_right (by exact_mod_cast units_strictMono less)
    (by exact_mod_cast unitsPerOne_pos)

theorem size_zero : size 0 = 0 := by
  rw [size, units_zero, Nat.cast_zero, zero_div]

theorem isNearest_zero : IsNearest 0 0 := by
  have next : size 0 < size 1 := size_strictMono Nat.zero_lt_one
  rw [size_zero] at next
  refine ⟨?_, ?_, fun _ => rfl⟩
  · rw [size_zero]
    norm_num
  · rw [size_zero]
    linarith

theorem isNearest_of_lt (lower : size (rank - 1) + size rank < 2 * ratio)
    (upper : 2 * ratio < size rank + size (rank + 1)) : IsNearest rank ratio := by
  refine ⟨lower.le, upper.le, ?_⟩
  intro tie
  rcases tie with onLower | onUpper
  · exact absurd onLower lower.ne'
  · exact absurd onUpper upper.ne

theorem IsNearest.unique (nearest : IsNearest rank ratio) (nearestOther : IsNearest other ratio) :
    rank = other := by
  wlog less : rank < other generalizing rank other
  · rcases Nat.lt_trichotomy rank other with before | same | behind
    · exact absurd before less
    · exact same
    · exact (this nearestOther nearest behind).symm
  have leftOf : size rank ≤ size (other - 1) := size_strictMono.monotone (by omega)
  have rightOf : size (rank + 1) ≤ size other := size_strictMono.monotone less
  have lower := nearestOther.lower
  have upper := nearest.upper
  -- Both midpoints are the ratio, so the ranks are neighbours and yet both even.
  have next : rank + 1 = other := size_strictMono.injective (by linarith)
  have even : rank % 2 = 0 := nearest.even_of_tie (.inr (by linarith))
  have evenOther : other % 2 = 0 := nearestOther.even_of_tie (.inl (by linarith))
  omega

theorem IsNearest.mono {larger : ℚ} (nearest : IsNearest rank ratio)
    (nearestOther : IsNearest other larger) (le : ratio ≤ larger) : rank ≤ other := by
  rcases le.eq_or_lt with rfl | less
  · exact (nearest.unique nearestOther).le
  by_contra behind
  have leftOf : size other ≤ size (rank - 1) := size_strictMono.monotone (by omega)
  have rightOf : size (other + 1) ≤ size rank := size_strictMono.monotone (by omega)
  have lower := nearest.lower
  have upper := nearestOther.upper
  linarith

theorem IsNearest.pos (nearest : IsNearest rank ratio) (positive : 0 < rank) : 0 < ratio := by
  have zero := size_zero
  have above : size 0 < size rank := size_strictMono positive
  have before : size 0 ≤ size (rank - 1) := size_strictMono.monotone (Nat.zero_le _)
  have lower := nearest.lower
  linarith

theorem IsNearest.distance_le (nearest : IsNearest rank ratio) (other : Nat) :
    |ratio - size rank| ≤ |ratio - size other| := by
  have lower := nearest.lower
  have upper := nearest.upper
  rcases Nat.lt_trichotomy other rank with before | rfl | behind
  · have leftOf : size other ≤ size (rank - 1) := size_strictMono.monotone (by omega)
    have ordered : size (rank - 1) ≤ size rank := size_strictMono.monotone (by omega)
    rw [abs_le]
    have distance := le_abs_self (ratio - size other)
    constructor <;> linarith
  · exact le_rfl
  · have rightOf : size (rank + 1) ≤ size other := size_strictMono.monotone behind
    have ordered : size rank ≤ size (rank + 1) := size_strictMono.monotone (by omega)
    rw [abs_le]
    have distance := neg_le_abs (ratio - size other)
    constructor <;> linarith

/-- Below a rank the midpoint is half a step away, but in front of a power of two, where the steps get
shorter, it is nearer; there the quotient was not rounded up. -/
theorem lowerMidpoint_le {scaled exponent significand : Nat}
    (normal : exponent = 0 ∨ blockSize ≤ significand ∧ blockSize * (den * 2 ^ exponent) ≤ scaled)
    (short : significand ≤ 2 * blockSize)
    (near : 2 * (significand * (den * 2 ^ exponent)) ≤ 2 * scaled + den * 2 ^ exponent)
    (positive : 0 < den) :
    let rank := exponent * blockSize + significand
    (units (rank - 1) + units rank) * den ≤ 2 * scaled ∧
      (2 * scaled = (units (rank - 1) + units rank) * den →
        rank = 0 ∨ 2 * (significand * (den * 2 ^ exponent)) = 2 * scaled + den * 2 ^ exponent) := by
  intro rank
  have atRank : units rank * den = _ := units_mul den (normal.imp_right And.left) short
  rcases Nat.eq_zero_or_pos rank with zero | positiveRank
  · rw [zero, units_zero]
    omega
  by_cases shortened : exponent = 0 ∨ blockSize < significand
  · have before : rank - 1 = exponent * blockSize + (significand - 1) := by
      unfold rank blockSize at *
      omega
    have atBefore : units (rank - 1) * den + den * 2 ^ exponent = units rank * den := by
      have whole : significand - 1 + 1 = significand := by
        unfold rank at positiveRank
        omega
      calc units (rank - 1) * den + den * 2 ^ exponent
        _ = (significand - 1 + 1) * (den * 2 ^ exponent) := by
          rw [before, units_mul den (by omega) (by omega), Nat.succ_mul]
        _ = units rank * den := by rw [whole, atRank]
    rw [Nat.add_mul]
    omega
  · rw [show significand = blockSize by omega] at atRank
    have decreasing : units (rank - 1) * den < units rank * den :=
      Nat.mul_lt_mul_of_pos_right (units_strictMono (by omega)) positive
    rw [Nat.add_mul]
    omega

theorem le_upperMidpoint {scaled exponent significand : Nat}
    (normal : exponent = 0 ∨ blockSize ≤ significand) (short : significand ≤ 2 * blockSize)
    (near : 2 * scaled ≤ 2 * (significand * (den * 2 ^ exponent)) + den * 2 ^ exponent) :
    let rank := exponent * blockSize + significand
    2 * scaled ≤ (units rank + units (rank + 1)) * den ∧
      (2 * scaled = (units rank + units (rank + 1)) * den →
        2 * scaled = 2 * (significand * (den * 2 ^ exponent)) + den * 2 ^ exponent) := by
  intro rank
  have atRank : units rank * den = _ := units_mul den normal short
  have steps : exponent ≤ unitExponent rank := by
    unfold rank unitExponent blockSize at *
    omega
  have step : den * 2 ^ exponent ≤ 2 ^ unitExponent rank * den := by
    rw [Nat.mul_comm den]
    exact Nat.mul_le_mul_right den (Nat.pow_le_pow_right (by decide) steps)
  rw [units_succ, Nat.add_mul, Nat.add_mul]
  omega

theorem isNearest_iff (positive : 0 < den) :
    IsNearest rank (num / den) ↔
      (units (rank - 1) + units rank) * den ≤ 2 * (num * unitsPerOne) ∧
      2 * (num * unitsPerOne) ≤ (units rank + units (rank + 1)) * den ∧
      (2 * (num * unitsPerOne) = (units (rank - 1) + units rank) * den ∨
        2 * (num * unitsPerOne) = (units rank + units (rank + 1)) * den → rank % 2 = 0) := by
  have onePositive : (0 : ℚ) < unitsPerOne := by exact_mod_cast unitsPerOne_pos
  have denPositive : (0 : ℚ) < den := by exact_mod_cast positive
  have midpoint (left right : Nat) :
      size left + size right = (units left + units right : Nat) / unitsPerOne := by
    rw [size, size, ← add_div, Nat.cast_add]
  have doubled : (2 : ℚ) * (num / den) = (2 * num : Nat) / den := by
    rw [Nat.cast_mul, Nat.cast_two, mul_div_assoc]
  have lower (left right : Nat) : size left + size right ≤ 2 * (num / den) ↔
      (units left + units right) * den ≤ 2 * (num * unitsPerOne) := by
    rw [midpoint, doubled, div_le_div_iff₀ onePositive denPositive, ← Nat.mul_assoc]
    exact_mod_cast Iff.rfl
  have upper (left right : Nat) : 2 * (num / den) ≤ size left + size right ↔
      2 * (num * unitsPerOne) ≤ (units left + units right) * den := by
    rw [midpoint, doubled, div_le_div_iff₀ denPositive onePositive, ← Nat.mul_assoc]
    exact_mod_cast Iff.rfl
  have tie (left right : Nat) : 2 * (num / den) = size left + size right ↔
      2 * (num * unitsPerOne) = (units left + units right) * den := by
    rw [le_antisymm_iff, upper, lower, Nat.le_antisymm_iff]
  constructor
  · intro nearest
    exact ⟨(lower _ _).mp nearest.lower, (upper _ _).mp nearest.upper, fun tied =>
      nearest.even_of_tie (tied.imp (tie _ _).mpr (tie _ _).mpr)⟩
  · intro bounds
    exact ⟨(lower _ _).mpr bounds.1, (upper _ _).mpr bounds.2.1, fun tied =>
      bounds.2.2 (tied.imp (tie _ _).mp (tie _ _).mp)⟩

/-- The exponent brings the quotient into the range of a significand. -/
theorem significand_range (scaled : Nat) (positive : 0 < den) :
    let exponent := (scaled / den).log2 - 52
    (exponent = 0 ∨ blockSize * (den * 2 ^ exponent) ≤ scaled) ∧
      scaled ≤ 2 * blockSize * (den * 2 ^ exponent) := by
  intro exponent
  constructor
  · rcases Nat.eq_zero_or_pos exponent with zero | large
    · exact .inl zero
    have nonzero : scaled / den ≠ 0 := by
      intro zero
      unfold exponent at large
      rw [zero, Nat.log2_zero] at large
      omega
    have bound : 2 ^ (exponent + 52) ≤ scaled / den := by
      rw [show exponent + 52 = (scaled / den).log2 by omega]
      exact Nat.log2_self_le nonzero
    rw [Nat.le_div_iff_mul_le positive, pow_add] at bound
    rw [blockSize_eq]
    exact .inr (by linarith)
  · have bound : scaled / den < 2 ^ (exponent + 53) :=
      lt_of_lt_of_le Nat.lt_log2_self (Nat.pow_le_pow_right (by decide) (by omega))
    rw [Nat.div_lt_iff_lt_mul positive, pow_add] at bound
    rw [blockSize_eq]
    linarith

theorem nearestRank_isNearest (num : Nat) (positive : 0 < den) :
    IsNearest (nearestRank num den) (num / den) := by
  rw [isNearest_iff positive, nearestRank, Nat.pow_eq]
  generalize num * unitsPerOne = scaled
  rcases significand_range scaled positive with ⟨normal, short⟩
  generalize (scaled / den).log2 - 52 = exponent at *
  have positiveStep : 0 < den * 2 ^ exponent := by positivity
  have shortQuotient := roundDiv_le positiveStep short
  have normalQuotient := normal.imp_right (le_roundDiv positiveStep)
  have spec := roundDiv_spec scaled positiveStep
  generalize roundDiv scaled (den * 2 ^ exponent) = significand at *
  have lower := lowerMidpoint_le (by tauto) shortQuotient spec.1 positive
  have upper := le_upperMidpoint normalQuotient shortQuotient spec.2.1
  refine ⟨lower.1, upper.1, fun tied => ?_⟩
  have even : exponent * blockSize + significand = 0 ∨ significand % 2 = 0 := by
    rcases tied with below | above
    · exact (lower.2 below).imp_right fun exactly => spec.2.2 (.inl exactly)
    · exact .inr (spec.2.2 (.inr (upper.2 above)))
  unfold blockSize at *
  omega

/-- What is computed for a ratio is its nearest double, and that one only. -/
theorem nearestRank_eq_iff (positive : 0 < den) :
    nearestRank num den = rank ↔ IsNearest rank (num / den) := by
  constructor
  · intro computed
    rw [← computed]
    exact nearestRank_isNearest num positive
  · exact (nearestRank_isNearest num positive).unique

/-- No double is nearer to a ratio than the one that is computed. -/
theorem nearestRank_distance_le (num : Nat) (positive : 0 < den) (other : Nat) :
    |(num : ℚ) / den - size (nearestRank num den)| ≤ |(num : ℚ) / den - size other| :=
  (nearestRank_isNearest num positive).distance_le other

theorem finite_of_ofRatio? {negative : Bool} {value : Double}
    (rounded : ofRatio? negative num den = some value) : ∃ rank, value = .finite negative rank := by
  unfold ofRatio? at rounded
  dsimp only at rounded
  split at rounded
  · rw [Option.some.injEq] at rounded
    exact ⟨_, rounded.symm⟩
  · cases rounded

theorem ofRatio?_of_isNearest {rank : Fin finiteCount} (negative : Bool) (positive : 0 < den)
    (nearest : IsNearest rank (num / den)) :
    ofRatio? negative num den = some (.finite negative rank) := by
  have computed : nearestRank num den = rank := (nearestRank_eq_iff positive).mpr nearest
  simp only [ofRatio?, computed, rank.isLt, dif_pos, Fin.eta]

end NearestRank

section Overflow

variable {num den rank : Nat} {ratio : ℚ}

/-- Halfway from the largest double to the next power of two. From here on a size is rounded to
infinity. -/
def overflow : ℚ :=
  2 ^ 1024 - 2 ^ 970

theorem size_eq {exponent significand : Nat} (normal : exponent = 0 ∨ blockSize ≤ significand)
    (short : significand ≤ 2 * blockSize) :
    size (exponent * blockSize + significand) = significand * (2 ^ exponent / 2 ^ 1074) := by
  have one : unitsPerOne = 2 ^ 1074 := by decide +kernel
  rw [size, units_eq normal short, one, Nat.cast_mul, Nat.cast_pow, Nat.cast_pow, Nat.cast_ofNat,
    mul_div_assoc]

theorem size_add_size_eq_overflow : size (finiteCount - 1) + size finiteCount = 2 * overflow := by
  have scale : (2 : ℚ) ^ 2045 / 2 ^ 1074 = 2 * 2 ^ 970 := by
    rw [div_eq_iff (by positivity), ← pow_succ', ← pow_add]
  have largest : size (finiteCount - 1) = (2 ^ 53 - 1) * (2 * 2 ^ 970) := by
    have significand : ((2 * blockSize - 1 : Nat) : ℚ) = 2 ^ 53 - 1 := by norm_num [blockSize]
    rw [show finiteCount - 1 = 2045 * blockSize + (2 * blockSize - 1) by decide,
      size_eq (.inr (by decide)) (by decide), significand, scale]
  have next : size finiteCount = 2 ^ 53 * (2 * 2 ^ 970) := by
    have significand : ((2 * blockSize : Nat) : ℚ) = 2 ^ 53 := by norm_num [blockSize]
    rw [show finiteCount = 2045 * blockSize + 2 * blockSize by decide,
      size_eq (.inr (by decide)) le_rfl, significand, scale]
  have power : (2 : ℚ) ^ 1024 = 2 ^ 54 * 2 ^ 970 := by rw [← pow_add]
  rw [largest, next, overflow, power]
  generalize (2 : ℚ) ^ 970 = step
  ring

theorem IsNearest.finiteCount_le_iff (nearest : IsNearest rank ratio) :
    finiteCount ≤ rank ↔ overflow ≤ ratio := by
  have midpoint := size_add_size_eq_overflow
  constructor
  · intro beyond
    have before : size (finiteCount - 1) ≤ size (rank - 1) := size_strictMono.monotone (by omega)
    have above : size finiteCount ≤ size rank := size_strictMono.monotone beyond
    have lower := nearest.lower
    linarith
  · intro large
    by_contra finite
    have below : size rank ≤ size (finiteCount - 1) := size_strictMono.monotone (by omega)
    have next : size (rank + 1) ≤ size finiteCount := size_strictMono.monotone (by omega)
    have upper := nearest.upper
    -- The ratio is on the last midpoint, and the largest double is odd.
    have largest : rank = finiteCount - 1 := size_strictMono.injective (by linarith)
    have even : rank % 2 = 0 := nearest.even_of_tie (.inr (by linarith))
    rw [largest] at even
    exact absurd even (by decide)

theorem ofRatio?_eq_none_iff (negative : Bool) (positive : 0 < den) :
    ofRatio? negative num den = none ↔ overflow ≤ (num : ℚ) / den := by
  rw [← (nearestRank_isNearest num positive).finiteCount_le_iff, ofRatio?]
  split
  · next inRange => simp [inRange]
  · next beyond => simp [Nat.not_lt.mp beyond]

theorem ofRatio?_eq_some_iff {negative : Bool} {value : Double} (positive : 0 < den) :
    ofRatio? negative num den = some value ↔
      ∃ rank : Fin finiteCount, IsNearest rank ((num : ℚ) / den) ∧ value = .finite negative rank := by
  constructor
  · intro rounded
    unfold ofRatio? at rounded
    dsimp only at rounded
    split at rounded
    · next inRange =>
      rw [Option.some.injEq] at rounded
      exact ⟨⟨_, inRange⟩, nearestRank_isNearest num positive, rounded.symm⟩
    · cases rounded
  · intro rounded
    rcases rounded with ⟨rank, nearest, rfl⟩
    exact ofRatio?_of_isNearest negative positive nearest

end Overflow

end LispCompiler.Double
