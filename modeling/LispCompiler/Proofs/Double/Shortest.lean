import Mathlib
import LispCompiler.Double.Shortest
import LispCompiler.Proofs.Double.Nearest

namespace LispCompiler.Double

section Rounding

variable {rank place significand : Nat}

def atPlace (significand place : Nat) : ℚ :=
  significand * 10 ^ place / 10 ^ decimalPlaces

theorem atPlace_eq (significand place : Nat) :
    atPlace significand place = (significand * 10 ^ place : Nat) / (10 ^ decimalPlaces : Nat) := by
  unfold atPlace
  push_cast
  rfl

theorem atPlace_eq_zpow (significand place : Nat) :
    atPlace significand place = significand * 10 ^ (place - decimalPlaces : ℤ) := by
  rw [atPlace, zpow_sub₀ (by norm_num), zpow_natCast, zpow_natCast, mul_div_assoc]

theorem atPlace_succ (count place : Nat) :
    atPlace (count + 1) place = atPlace count place + atPlace 1 place := by
  unfold atPlace
  push_cast
  ring

theorem atPlace_add (count place more : Nat) :
    atPlace count (place + more) = 10 ^ more * atPlace count place := by
  unfold atPlace
  rw [pow_add]
  ring

theorem roundsTo_iff :
    roundsTo rank (2 * (significand * (unitsPerOne * Nat.pow 10 place))) ↔
      IsNearest rank (atPlace significand place) := by
  rw [atPlace_eq, isNearest_iff (by positivity)]
  unfold roundsTo fineUnits
  rw [Nat.pow_eq, Nat.pow_eq,
    show significand * (unitsPerOne * 10 ^ place) = significand * 10 ^ place * unitsPerOne by ring,
    Nat.add_mul, Nat.add_mul]
  generalize units (rank - 1) * 10 ^ decimalPlaces + units rank * 10 ^ decimalPlaces = low
  generalize units rank * 10 ^ decimalPlaces + units (rank + 1) * 10 ^ decimalPlaces = high
  generalize significand * 10 ^ place * unitsPerOne = point
  split
  · simp only [Bool.and_eq_true, decide_eq_true_eq]
    omega
  · simp only [Bool.and_eq_true, decide_eq_true_eq]
    omega

def stepsBelow (rank place : Nat) : Nat :=
  fineUnits rank / (unitsPerOne * Nat.pow 10 place)

theorem neighbour?_eq_some (found : neighbour? rank place = some significand) :
    IsNearest rank (atPlace significand place) := by
  rw [← roundsTo_iff]
  unfold neighbour? at found
  dsimp only at found
  split at found
  · next fits =>
    rw [Option.some.injEq] at found
    rw [← found]
    exact (Bool.and_eq_true_iff.mp fits).1
  split at found
  · next fits =>
    rw [Option.some.injEq] at found
    rw [← found]
    exact fits
  · cases found

theorem neighbour?_ne_none (near : IsNearest rank (atPlace (stepsBelow rank place) place) ∨
    IsNearest rank (atPlace (stepsBelow rank place + 1) place)) :
    neighbour? rank place ≠ none := by
  rw [← roundsTo_iff, ← roundsTo_iff] at near
  unfold stepsBelow at near
  unfold neighbour?
  dsimp only
  split
  · simp
  split
  · simp
  · simp_all

end Rounding

section SeventeenDigits

variable {rank place count : Nat}

theorem le_stepsBelow_iff : count ≤ stepsBelow rank place ↔ atPlace count place ≤ size rank := by
  have onePositive := unitsPerOne_pos
  have oneCast : (0 : ℚ) < unitsPerOne := by exact_mod_cast onePositive
  rw [stepsBelow, fineUnits, Nat.pow_eq, Nat.pow_eq, Nat.le_div_iff_mul_le (by positivity), atPlace_eq,
    size, div_le_div_iff₀ (by positivity) oneCast, ← Nat.cast_mul, ← Nat.cast_mul, Nat.cast_le,
    show count * (unitsPerOne * 10 ^ place) = count * 10 ^ place * unitsPerOne by ring]

theorem atPlace_stepsBelow_le (rank place : Nat) : atPlace (stepsBelow rank place) place ≤ size rank :=
  le_stepsBelow_iff.mp le_rfl

theorem size_lt_atPlace (rank place : Nat) : size rank < atPlace (stepsBelow rank place + 1) place := by
  by_contra high
  have bound := le_stepsBelow_iff.mpr (not_lt.mp high)
  omega

theorem pow_length_le {number : Nat} (positive : 0 < number) :
    10 ^ ((Nat.toDigits 10 number).length - 1) ≤ number := by
  rcases Nat.eq_zero_or_pos ((Nat.toDigits 10 number).length - 1) with zero | long
  · rw [zero]
    exact positive
  · rw [← Nat.not_lt, ← Nat.length_toDigits_le_iff (by decide) long]
    omega

theorem lt_pow_length (number : Nat) : number < 10 ^ (Nat.toDigits 10 number).length :=
  (Nat.length_toDigits_le_iff (by decide) Nat.length_toDigits_pos).mp le_rfl

/-- Even the least positive double has seventeen digits before the last of `decimalPlaces`. -/
theorem wholePart_large (positive : 0 < rank) : 10 ^ 16 ≤ fineUnits rank / unitsPerOne := by
  have scale : 10 ^ 16 * unitsPerOne ≤ Nat.pow 10 decimalPlaces := by decide +kernel
  have least : 1 ≤ units rank := by
    have increasing := units_strictMono positive
    omega
  rw [Nat.le_div_iff_mul_le unitsPerOne_pos]
  exact scale.trans (Nat.le_mul_of_pos_left _ least)

theorem le_leadingPlace (positive : 0 < rank) : 16 ≤ leadingPlace rank := by
  have large := wholePart_large positive
  have long : 16 < (Nat.toDigits 10 (fineUnits rank / unitsPerOne)).length := by
    rw [← Nat.not_le, Nat.length_toDigits_le_iff (by decide) (by decide)]
    omega
  unfold leadingPlace
  omega

theorem atPlace_leadingPlace_le (positive : 0 < rank) : atPlace 1 (leadingPlace rank) ≤ size rank := by
  have leading := pow_length_le (lt_of_lt_of_le (by decide) (wholePart_large positive))
  rw [← le_stepsBelow_iff, stepsBelow, ← Nat.div_div_eq_div_mul, Nat.pow_eq]
  exact (Nat.one_le_div_iff (by positivity)).mpr leading

def gap (rank : Nat) : ℚ :=
  2 ^ unitExponent rank / unitsPerOne

theorem gap_pos (rank : Nat) : 0 < gap rank :=
  div_pos (pow_pos two_pos _) (Nat.cast_pos.mpr unitsPerOne_pos)

theorem gap_mono : Monotone gap := by
  intro rank other le
  have exponents : unitExponent rank ≤ unitExponent other := by
    unfold unitExponent
    exact Nat.sub_le_sub_right (Nat.div_le_div_right le) 1
  exact div_le_div_of_nonneg_right (pow_le_pow_right₀ one_le_two exponents) (Nat.cast_nonneg _)

theorem size_succ (rank : Nat) : size (rank + 1) = size rank + gap rank := by
  rw [size, size, gap, units_succ, ← add_div]
  push_cast
  rfl

/-- A double is at most two to the 53rd times as large as the distance to the one below it. -/
theorem size_succ_le (rank : Nat) : size (rank + 1) ≤ 2 ^ 53 * gap rank := by
  rcases exists_significand rank with ⟨significand, whole, normal, short⟩
  have bound : units (rank + 1) ≤ 2 ^ 53 * 2 ^ unitExponent rank := by
    rw [units_succ]
    nth_rw 1 [whole]
    rw [units_eq normal short.le, ← Nat.succ_mul]
    refine Nat.mul_le_mul_right _ ?_
    unfold blockSize at short
    omega
  rw [size, gap, ← mul_div_assoc]
  exact div_le_div_of_nonneg_right (by exact_mod_cast bound) (Nat.cast_nonneg _)

/-- A unit of the seventeenth digit is less than the distance to the double below. -/
theorem seventeenth_lt_gap (rank : Nat) : atPlace 1 (leadingPlace (rank + 1) - 16) < gap rank := by
  have leading := atPlace_leadingPlace_le rank.succ_pos
  have enough := le_leadingPlace rank.succ_pos
  have scaled := atPlace_add 1 (leadingPlace (rank + 1) - 16) 16
  rw [Nat.sub_add_cancel enough] at scaled
  have bound := size_succ_le rank
  have positive := gap_pos rank
  linarith

/-- Of the two numbers of seventeen digits around a double, one is less than half the distance to the
next double away from it. -/
theorem neighbour?_seventeen (rank : Nat) :
    neighbour? (rank + 1) (leadingPlace (rank + 1) - 16) ≠ none := by
  apply neighbour?_ne_none
  have short := seventeenth_lt_gap rank
  generalize leadingPlace (rank + 1) - 16 = place at *
  have below := atPlace_stepsBelow_le (rank + 1) place
  have above := size_lt_atPlace (rank + 1) place
  rw [atPlace_succ] at above ⊢
  have previous := size_succ rank
  have next := size_succ (rank + 1)
  have positive := gap_pos rank
  have wider : gap rank ≤ gap (rank + 1) := gap_mono (Nat.le_succ rank)
  generalize atPlace (stepsBelow (rank + 1) place) place = lower at *
  rcases lt_or_ge (2 * (size (rank + 1) - lower)) (gap rank) with near | far
  · refine .inl (isNearest_of_lt ?_ ?_)
    · rw [Nat.add_sub_cancel]
      linarith
    · linarith
  · refine .inr (isNearest_of_lt ?_ ?_)
    · rw [Nat.add_sub_cancel]
      linarith
    · linarith

theorem shortest_spec (positive : 0 < rank) :
    ∃ significand place, shortest rank = Digits.ofScaled significand place ∧
      IsNearest rank (atPlace significand place) := by
  unfold shortest
  dsimp only
  split
  · next digits found =>
    rcases List.exists_of_findSome?_eq_some found with ⟨place, _, chosen⟩
    rcases Option.map_eq_some_iff.mp chosen with ⟨significand, near, written⟩
    exact ⟨significand, place, written.symm, neighbour?_eq_some near⟩
  · next missing =>
    rcases Nat.exists_eq_succ_of_ne_zero positive.ne' with ⟨previous, rfl⟩
    have last : leadingPlace (previous + 1) - 16 ∈
        (List.range 17).map (leadingPlace (previous + 1) - ·) :=
      List.mem_map_of_mem (by decide)
    have none := List.findSome?_eq_none_iff.mp missing _ last
    exact absurd (Option.map_eq_none_iff.mp none) (neighbour?_seventeen previous)

end SeventeenDigits

section Order

variable {significand place rank : Nat}

def Digits.value (digits : Digits) : ℚ :=
  Nat.ofDigitChars 10 digits.text 0 * 10 ^ (digits.exponent + 1 - digits.text.length)

theorem Digits.ofScaled_text (significand place : Nat) :
    ∃ count, Nat.toDigits 10 significand = (ofScaled significand place).text ++ zeros count := by
  unfold ofScaled zeros
  generalize Nat.toDigits 10 significand = digits
  refine ⟨(digits.reverse.takeWhile (· == '0')).length, ?_⟩
  have dropped : digits.reverse.takeWhile (· == '0') =
      List.replicate (digits.reverse.takeWhile (· == '0')).length '0' := by
    refine List.eq_replicate_iff.mpr ⟨rfl, fun c member => ?_⟩
    have zero := List.mem_takeWhile_imp member
    exact beq_iff_eq.mp zero
  rw [← List.reverse_inj, List.reverse_append, List.reverse_replicate, List.reverse_reverse, ← dropped,
    List.takeWhile_append_dropWhile]

theorem Digits.ofScaled_exponent (significand place : Nat) :
    (ofScaled significand place).exponent =
      (place - decimalPlaces : ℤ) + ((Nat.toDigits 10 significand).length - 1 : Nat) :=
  rfl

theorem Digits.value_ofScaled (significand place : Nat) :
    (ofScaled significand place).value = atPlace significand place := by
  rcases ofScaled_text significand place with ⟨count, whole⟩
  have number := congrArg (Nat.ofDigitChars 10 · 0) whole
  have length := congrArg List.length whole
  have filled := Nat.length_toDigits_pos (b := 10) (n := significand)
  simp only [Nat.ofDigitChars_ten_toDigits, Nat.ofDigitChars_append, zeros,
    Nat.ofDigitChars_replicate_zero] at number
  simp only [List.length_append, zeros, List.length_replicate] at length
  have exponent : (ofScaled significand place).exponent + 1 - (ofScaled significand place).text.length =
      (count : ℤ) + (place - decimalPlaces) := by
    rw [ofScaled_exponent]
    omega
  have numberCast : (significand : ℚ) =
      10 ^ count * Nat.ofDigitChars 10 (ofScaled significand place).text 0 := by
    exact_mod_cast number
  rw [value, exponent, atPlace_eq_zpow, zpow_add₀ (by norm_num), zpow_natCast, numberCast]
  ring

theorem Digits.value_one (exponent : ℤ) : value ⟨['1'], exponent⟩ = 10 ^ exponent := by
  rw [value, show Nat.ofDigitChars 10 ['1'] 0 = 1 from rfl, Nat.cast_one, one_mul, List.length_singleton,
    Nat.cast_one, add_sub_cancel_right]

theorem Digits.le_exponent_iff (positive : 0 < significand) (bound : ℤ) :
    bound ≤ (ofScaled significand place).exponent ↔ 10 ^ bound ≤ atPlace significand place := by
  have filled := Nat.length_toDigits_pos (b := 10) (n := significand)
  have order := ofScaled_exponent significand place
  have low := pow_length_le positive
  have high := lt_pow_length significand
  generalize (Nat.toDigits 10 significand).length = length at *
  rw [atPlace_eq_zpow]
  have unit : (0 : ℚ) < 10 ^ (place - decimalPlaces : ℤ) := by positivity
  constructor
  · intro small
    calc (10 : ℚ) ^ bound
      _ ≤ 10 ^ (ofScaled significand place).exponent := zpow_le_zpow_right₀ (by norm_num) small
      _ = (10 ^ (length - 1) : Nat) * 10 ^ (place - decimalPlaces : ℤ) := by
        rw [order, zpow_add₀ (by norm_num), zpow_natCast, mul_comm, Nat.cast_pow, Nat.cast_ofNat]
      _ ≤ significand * 10 ^ (place - decimalPlaces : ℤ) :=
        mul_le_mul_of_nonneg_right (by exact_mod_cast low) unit.le
  · intro large
    by_contra beyond
    refine absurd large (not_le.mpr ?_)
    calc significand * (10 : ℚ) ^ (place - decimalPlaces : ℤ)
      _ < (10 ^ length : Nat) * 10 ^ (place - decimalPlaces : ℤ) :=
        mul_lt_mul_of_pos_right (by exact_mod_cast high) unit
      _ = 10 ^ (length + (place - decimalPlaces) : ℤ) := by
        rw [zpow_add₀ (by norm_num), zpow_natCast, Nat.cast_pow, Nat.cast_ofNat]
      _ ≤ 10 ^ bound := zpow_le_zpow_right₀ (by norm_num) (by omega)

theorem shortest_isNearest (positive : 0 < rank) : IsNearest rank (shortest rank).value := by
  rcases shortest_spec positive with ⟨significand, place, written, nearest⟩
  rw [written, Digits.value_ofScaled]
  exact nearest

theorem le_shortest_exponent_iff (positive : 0 < rank) (bound : ℤ) :
    bound ≤ (shortest rank).exponent ↔ 10 ^ bound ≤ (shortest rank).value := by
  rcases shortest_spec positive with ⟨significand, place, written, nearest⟩
  have filled : significand ≠ 0 := by
    intro zero
    have pos := nearest.pos positive
    simp [zero, atPlace] at pos
  rw [written, Digits.value_ofScaled]
  exact Digits.le_exponent_iff (Nat.pos_of_ne_zero filled) bound

theorem shortest_text_ne_nil (positive : 0 < rank) : (shortest rank).text ≠ [] := by
  intro empty
  have pos := (shortest_isNearest positive).pos positive
  simp [Digits.value, empty] at pos

/-- The first double to reach a power of ten has it for its digits, so that no rounding of the digits
carries over to it from below, and none falls short of it. -/
theorem le_shortest_exponent_iff_size {first : Nat} {bound : ℤ} (firstPositive : 0 < first)
    (written : shortest first = ⟨['1'], bound⟩) (before : size (first - 1) < 10 ^ bound)
    (reached : 10 ^ bound ≤ size first) (positive : 0 < rank) :
    bound ≤ (shortest rank).exponent ↔ 10 ^ bound ≤ size rank := by
  have exactly : (shortest first).value = 10 ^ bound := by rw [written, Digits.value_one]
  have nearestFirst := shortest_isNearest firstPositive
  have nearest := shortest_isNearest positive
  rw [exactly] at nearestFirst
  rw [le_shortest_exponent_iff positive]
  constructor
  · intro large
    have le : first ≤ rank := nearestFirst.mono nearest large
    exact reached.trans (size_strictMono.monotone le)
  · intro large
    have le : first ≤ rank := by
      by_contra less
      have bound : size rank ≤ size (first - 1) := size_strictMono.monotone (by omega)
      linarith
    by_contra small
    have same : rank = first := le_antisymm (nearest.mono nearestFirst (not_le.mp small).le) le
    rw [same, exactly] at small
    exact small le_rfl

theorem neg_four_le_exponent_iff (positive : 0 < rank) :
    -4 ≤ (shortest rank).exponent ↔ 10 ^ (-4 : ℤ) ≤ size rank := by
  have onePositive : (0 : ℚ) < unitsPerOne := Nat.cast_pos.mpr unitsPerOne_pos
  have written : shortest 0x3F1A36E2EB1C432D = ⟨['1'], -4⟩ := by decide +kernel
  have before : units (0x3F1A36E2EB1C432D - 1) * 10 ^ 4 < unitsPerOne := by decide +kernel
  have reached : unitsPerOne ≤ units 0x3F1A36E2EB1C432D * 10 ^ 4 := by decide +kernel
  have power : (10 : ℚ) ^ (-4 : ℤ) = 1 / 10 ^ 4 := by norm_num
  refine le_shortest_exponent_iff_size (by decide) written ?_ ?_ positive
  · rw [power, size, div_lt_div_iff₀ onePositive (by norm_num), one_mul]
    exact_mod_cast before
  · rw [power, size, div_le_div_iff₀ (by norm_num) onePositive, one_mul]
    exact_mod_cast reached

theorem sixteen_le_exponent_iff (positive : 0 < rank) :
    16 ≤ (shortest rank).exponent ↔ 10 ^ (16 : ℤ) ≤ size rank := by
  have onePositive : (0 : ℚ) < unitsPerOne := Nat.cast_pos.mpr unitsPerOne_pos
  have written : shortest 0x4341C37937E08000 = ⟨['1'], 16⟩ := by decide +kernel
  have reached : units 0x4341C37937E08000 = 10 ^ 16 * unitsPerOne := by decide +kernel
  have exactly : size 0x4341C37937E08000 = 10 ^ (16 : ℤ) := by
    rw [size, reached, Nat.cast_mul, mul_div_assoc, div_self onePositive.ne']
    norm_num
  refine le_shortest_exponent_iff_size (by decide) written ?_ exactly.ge positive
  rw [← exactly]
  exact size_strictMono (by decide)

end Order

end LispCompiler.Double
