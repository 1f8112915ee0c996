import Mathlib.Data.List.TakeWhile
import LispCompiler.Datum.Word
import LispCompiler.Proofs.Token.Lexing

namespace LispCompiler

namespace Numeral

theorem ofUnsigned?_digits (negative : Bool) {digits : List Char} (nonempty : digits ≠ [])
    (decimal : ∀ c ∈ digits, c.isDigit) :
    ofUnsigned? negative digits = some ⟨negative, digits, none⟩ := by
  have whole : digits.takeWhile Char.isDigit = digits := List.takeWhile_eq_self_iff.mpr decimal
  have rest : digits.dropWhile Char.isDigit = [] := List.dropWhile_eq_nil_iff.mpr decimal
  simp [ofUnsigned?, whole, rest, nonempty]

theorem toDigits_isDigit (magnitude : Nat) : ∀ c ∈ Nat.toDigits 10 magnitude, c.isDigit :=
  fun _ member => Nat.isDigit_of_mem_toDigits (by decide) (by decide) member

theorem toList_toString (value : Int) :
    (toString value).toList =
      (if value < 0 then ['-'] else []) ++ Nat.toDigits 10 value.natAbs := by
  rw [Int.toString_eq_repr, Int.repr_eq_if]
  by_cases negative : value < 0
  · have magnitude : (-value).toNat = value.natAbs := by omega
    simp [negative, Int.not_le.mpr negative, magnitude]
  · have magnitude : value.toNat = value.natAbs := by omega
    simp [negative, Int.not_lt.mp negative, magnitude]

theorem ofText?_toString (value : Int) :
    ofText? (toString value).toList =
      some ⟨value < 0, Nat.toDigits 10 value.natAbs, none⟩ := by
  have digits := fun negative =>
    ofUnsigned?_digits negative Nat.toDigits_ne_nil (toDigits_isDigit value.natAbs)
  rw [toList_toString]
  by_cases negative : value < 0
  · simp [ofText?, negative, digits]
  · simp only [negative, if_false, List.nil_append, decide_false]
    unfold ofText?
    split
    · next rest first =>
      have sign := toDigits_isDigit value.natAbs '-' (by simp [first])
      exact absurd sign (by decide)
    · exact digits false

theorem value?_integer (value : Int64) :
    value? ⟨value.toInt < 0, Nat.toDigits 10 value.toInt.natAbs, none⟩ = some (.integer value) := by
  have signed : applySign (decide (value.toInt < 0)) value.toInt.natAbs = value.toInt := by
    unfold applySign
    by_cases negative : value.toInt < 0
    · rw [if_pos (decide_eq_true negative)]
      omega
    · rw [if_neg (by simp [negative])]
      omega
  have inRange := And.intro value.minValue_le_toInt value.toInt_le
  simp only [value?, Nat.ofDigitChars_ten_toDigits, signed, toInt64?, if_pos inRange,
    Int64.ofInt_toInt, Option.map_some]

end Numeral

namespace Datum

theorem literal?_of_written {word : String} {numeral : Numeral}
    (written : Numeral.ofText? word.toList = some numeral) : literal? word = none := by
  have true_unwritten : Numeral.ofText? "true".toList = none := by decide
  have false_unwritten : Numeral.ofText? "false".toList = none := by decide
  have nil_unwritten : Numeral.ofText? "nil".toList = none := by decide
  unfold literal?
  split <;> simp_all

theorem ofWord?_integer (value : Int64) :
    ofWord? (toString value.toInt) = some (.integer value) := by
  have written := Numeral.ofText?_toString value.toInt
  rw [ofWord?, literal?_of_written written, written]
  exact Numeral.value?_integer value

theorem isWordChar_of_isDigit {c : Char} (digit : c.isDigit) : Token.isWordChar c ∧ c ≠ ';' := by
  have differs : ∀ other : Char, other.isDigit = false → c ≠ other := by
    rintro other noDigit rfl
    simp [digit] at noDigit
  simp (disch := decide) [Token.isWordChar, Token.isBlank, Token.isStructural, differs]

theorem isWord_integer (value : Int) : Token.IsWord (toString value).toList := by
  have plain : ∀ c ∈ (toString value).toList, Token.isWordChar c ∧ c ≠ ';' := by
    intro c member
    rw [Numeral.toList_toString, List.mem_append] at member
    rcases member with sign | digit
    · obtain rfl : c = '-' := by
        split at sign <;> simp_all
      decide
    · exact isWordChar_of_isDigit (Numeral.toDigits_isDigit value.natAbs c digit)
  refine ⟨?_, fun comment => ?_, fun c member => (plain c member).1⟩
  · rw [Numeral.toList_toString]
    simp [Nat.toDigits_ne_nil]
  · exact (plain ';' (List.mem_of_head? comment)).2 rfl

end Datum

end LispCompiler
