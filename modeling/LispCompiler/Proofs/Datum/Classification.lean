import Mathlib
import LispCompiler.Proofs.Datum.FloatRoundTrip

namespace LispCompiler

open Double

namespace Numeral

def IsDigits (text : List Char) : Prop :=
  text ≠ [] ∧ ∀ c ∈ text, c.isDigit

def placeValue (digits : List Char) : Nat :=
  Nat.ofDigits 10 (digits.reverse.map fun c => c.toNat - '0'.toNat)

inductive IsInteger : List Char → Int → Prop
  | intro {negative : Bool} {digits : List Char} (isDigits : IsDigits digits) :
      IsInteger (sign negative ++ digits)
        (if negative then -(placeValue digits : Int) else placeValue digits)

inductive IsDecimal : List Char → Bool → ℚ → Prop
  | intro {negative : Bool} {whole fraction : List Char} (isWhole : IsDigits whole)
      (isFraction : IsDigits fraction) :
      IsDecimal (sign negative ++ (whole ++ '.' :: fraction)) negative
        (placeValue whole + placeValue fraction / 10 ^ fraction.length)

def InRange (number : Int) : Prop :=
  -2 ^ 63 ≤ number ∧ number ≤ 2 ^ 63 - 1

section PlaceValue

theorem placeValue_append (digits others : List Char) :
    placeValue (digits ++ others) = placeValue digits * 10 ^ others.length + placeValue others := by
  rw [placeValue, List.reverse_append, List.map_append, Nat.ofDigits_append, List.length_map,
    List.length_reverse, Nat.mul_comm, Nat.add_comm]
  rfl

theorem placeValue_singleton (c : Char) : placeValue [c] = c.toNat - '0'.toNat := by
  simp [placeValue]

theorem ofDigitChars_eq_placeValue (digits : List Char) :
    Nat.ofDigitChars 10 digits 0 = placeValue digits := by
  induction digits using List.reverseRecOn with
  | nil => rfl
  | append_singleton digits c ih =>
    rw [Nat.ofDigitChars_append, ih, placeValue_append, placeValue_singleton, Nat.ofDigitChars_cons,
      Nat.ofDigitChars_nil, List.length_singleton, Nat.pow_one, Nat.mul_comm]

/-- Moving the point behind the last digit multiplies by a power of ten. -/
theorem placeValue_append_div (whole fraction : List Char) :
    (placeValue (whole ++ fraction) : ℚ) / (10 ^ fraction.length : Nat) =
      placeValue whole + placeValue fraction / 10 ^ fraction.length := by
  have positive : (10 : ℚ) ^ fraction.length ≠ 0 := by positivity
  rw [placeValue_append]
  push_cast
  field_simp

end PlaceValue

section Texts

variable {negative : Bool} {text digits whole fraction rest : List Char} {numeral : Numeral}

theorem IsDigits.head?_ne_minus (isDigits : IsDigits digits) : (digits ++ rest).head? ≠ some '-' := by
  rcases List.exists_cons_of_ne_nil isDigits.1 with ⟨first, others, rfl⟩
  exact LispCompiler.head?_ne_minus (isDigits.2 first List.mem_cons_self)

theorem ofText?_integer (isDigits : IsDigits digits) :
    ofText? (sign negative ++ digits) = some ⟨negative, digits, none⟩ := by
  have unsigned := @IsDigits.head?_ne_minus digits [] isDigits
  rw [List.append_nil] at unsigned
  rw [ofText?_sign negative unsigned, ofUnsigned?_digits negative isDigits.1 isDigits.2]

theorem ofText?_decimal (isWhole : IsDigits whole) (isFraction : IsDigits fraction) :
    ofText? (sign negative ++ (whole ++ '.' :: fraction)) = some ⟨negative, whole, some fraction⟩ := by
  rw [ofText?_sign negative isWhole.head?_ne_minus]
  exact ofUnsigned?_pointed negative isWhole.1 isFraction.1
    (List.forall_mem_append.mpr ⟨isWhole.2, isFraction.2⟩)

theorem exists_sign (text : List Char) :
    ∃ negative unsigned, text = sign negative ++ unsigned ∧
      ofText? text = ofUnsigned? negative unsigned := by
  unfold ofText?
  split
  · exact ⟨true, _, rfl, rfl⟩
  · exact ⟨false, _, rfl, rfl⟩

theorem ofUnsigned?_cases (written : ofUnsigned? negative text = some numeral) :
    IsDigits text ∨
      ∃ whole fraction, IsDigits whole ∧ IsDigits fraction ∧ text = whole ++ '.' :: fraction := by
  have digits : ∀ c ∈ text.takeWhile Char.isDigit, c.isDigit := fun c => List.mem_takeWhile_imp
  have split := (List.takeWhile_append_dropWhile (p := Char.isDigit) (l := text)).symm
  unfold ofUnsigned? at written
  dsimp only at written
  split at written
  · cases written
  next filled =>
  have isWhole : IsDigits (text.takeWhile Char.isDigit) := ⟨by simpa using filled, digits⟩
  split at written
  · next ended =>
    rw [ended, List.append_nil] at split
    exact .inl (split ▸ isWhole)
  · next fraction pointed =>
    rw [pointed] at split
    split at written
    · next decimal =>
      have isFraction : IsDigits fraction := by simpa [IsDigits] using decimal
      exact .inr ⟨_, fraction, isWhole, isFraction, split⟩
    · cases written
  · cases written

theorem IsInteger.written {number : Int} (isInteger : IsInteger text number) : ofText? text ≠ none := by
  cases isInteger with
  | intro isDigits => simp [ofText?_integer isDigits]

theorem IsDecimal.written {number : ℚ} (isDecimal : IsDecimal text negative number) :
    ofText? text ≠ none := by
  cases isDecimal with
  | intro isWhole isFraction => simp [ofText?_decimal isWhole isFraction]

theorem ofText?_cases (text : List Char) :
    (∃ number, IsInteger text number) ∨ (∃ negative number, IsDecimal text negative number) ∨
      ofText? text = none := by
  rcases exists_sign text with ⟨negative, unsigned, rfl, same⟩
  rw [same]
  cases written : ofUnsigned? negative unsigned with
  | none => exact .inr (.inr rfl)
  | some numeral =>
    rcases ofUnsigned?_cases written with isDigits | ⟨whole, fraction, isWhole, isFraction, rfl⟩
    · exact .inl ⟨_, .intro isDigits⟩
    · exact .inr (.inl ⟨negative, _, .intro isWhole isFraction⟩)

end Texts

section Range

variable {number : Int}

theorem toInt64?_eq_some_iff {value : Int64} :
    toInt64? number = some value ↔ InRange number ∧ value.toInt = number := by
  unfold toInt64? InRange
  rw [Int64.toInt_minValue, Int64.toInt_maxValue]
  by_cases inRange : -2 ^ 63 ≤ number ∧ number ≤ 2 ^ 63 - 1
  · have fits : (Int64.ofInt number).toInt = number :=
      Int64.toInt_ofInt_of_le inRange.1 (Int.lt_of_le_sub_one inRange.2)
    rw [if_pos inRange, Option.some.injEq, ← Int64.toInt_inj, fits]
    exact ⟨fun same => ⟨inRange, same.symm⟩, fun same => same.2.symm⟩
  · rw [if_neg inRange]
    exact iff_of_false (Option.some_ne_none value).symm fun same => inRange same.1

theorem toInt64?_eq_none_iff : toInt64? number = none ↔ ¬InRange number := by
  unfold toInt64? InRange
  rw [Int64.toInt_minValue, Int64.toInt_maxValue]
  split <;> simp_all

end Range

end Numeral

namespace Datum

open Numeral

variable {word : String}

theorem ofWord?_of_isInteger {number : Int} (isInteger : IsInteger word.toList number) :
    ofWord? word = (toInt64? number).map .integer := by
  generalize text : word.toList = written at isInteger
  cases isInteger with
  | @intro negative digits isDigits =>
    have parsed : ofText? word.toList = some ⟨negative, digits, none⟩ := by
      rw [text, ofText?_integer isDigits]
    rw [ofWord?, literal?_of_written parsed, parsed]
    dsimp only [value?]
    rw [ofDigitChars_eq_placeValue, applySign]

theorem ofWord?_of_isDecimal {negative : Bool} {number : ℚ}
    (isDecimal : IsDecimal word.toList negative number) :
    ∃ num den : Nat, 0 < den ∧ (num : ℚ) / den = number ∧
      ofWord? word = (ofRatio? negative num den).map .float := by
  generalize text : word.toList = written at isDecimal
  cases isDecimal with
  | @intro negative whole fraction isWhole isFraction =>
    have parsed : ofText? word.toList = some ⟨negative, whole, some fraction⟩ := by
      rw [text, ofText?_decimal isWhole isFraction]
    refine ⟨_, _, by positivity, placeValue_append_div whole fraction, ?_⟩
    rw [ofWord?, literal?_of_written parsed, parsed]
    dsimp only [value?]
    rw [ofDigitChars_eq_placeValue, Nat.pow_eq]

/-- What a word means: a datum, or nothing where it is a number out of range. -/
inductive Means (word : String) : Option Datum → Prop
  | bool {value : Bool} (same : word = toString value) : Means word (some (.bool value))
  | nil (same : word = "nil") : Means word (some .nil)
  | integer {number : Int} {value : Int64} (isInteger : IsInteger word.toList number)
      (inRange : InRange number) (same : value.toInt = number) : Means word (some (.integer value))
  | largeInteger {number : Int} (isInteger : IsInteger word.toList number) (beyond : ¬InRange number) :
      Means word none
  | float {negative : Bool} {number : ℚ} {rank : Fin finiteCount}
      (isDecimal : IsDecimal word.toList negative number) (nearest : IsNearest rank number) :
      Means word (some (.float (.finite negative rank)))
  | largeFloat {negative : Bool} {number : ℚ} (isDecimal : IsDecimal word.toList negative number)
      (beyond : overflow ≤ number) : Means word none
  | symbol (unknown : word ∉ ["true", "false", "nil"]) (noInteger : ∀ number, ¬IsInteger word.toList number)
      (noDecimal : ∀ negative number, ¬IsDecimal word.toList negative number) :
      Means word (some (.symbol word))

theorem literal?_eq_none_iff : literal? word = none ↔ word ∉ ["true", "false", "nil"] := by
  unfold literal?
  split <;> simp_all

theorem means_of_literal {datum : Datum} (known : literal? word = some datum) :
    Means word (some datum) := by
  unfold literal? at known
  split at known
  · cases known
    exact .bool rfl
  · cases known
    exact .bool rfl
  · cases known
    exact .nil rfl
  · cases known

theorem means_ofWord? (word : String) : Means word (ofWord? word) := by
  rcases ofText?_cases word.toList with ⟨number, isInteger⟩ | ⟨negative, number, isDecimal⟩ | unwritten
  · rw [ofWord?_of_isInteger isInteger]
    cases fits : toInt64? number with
    | none => exact .largeInteger isInteger (toInt64?_eq_none_iff.mp fits)
    | some value =>
      rcases toInt64?_eq_some_iff.mp fits with ⟨inRange, same⟩
      exact .integer isInteger inRange same
  · rcases ofWord?_of_isDecimal isDecimal with ⟨num, den, positive, rfl, outcome⟩
    rw [outcome]
    cases rounded : ofRatio? negative num den with
    | none => exact .largeFloat isDecimal ((ofRatio?_eq_none_iff negative positive).mp rounded)
    | some value =>
      rcases (ofRatio?_eq_some_iff positive).mp rounded with ⟨rank, nearest, rfl⟩
      exact .float isDecimal nearest
  · cases known : literal? word with
    | some datum =>
      rw [ofWord?, known]
      exact means_of_literal known
    | none =>
      rw [ofWord?, known, unwritten]
      refine .symbol (literal?_eq_none_iff.mp known) ?_ ?_
      · intro number isInteger
        exact isInteger.written unwritten
      · intro negative number isDecimal
        exact isDecimal.written unwritten

theorem Means.ofWord?_eq {outcome : Option Datum} (means : Means word outcome) :
    ofWord? word = outcome := by
  cases means with
  | @bool value same =>
    rw [same]
    cases value <;> rfl
  | nil same =>
    rw [same]
    rfl
  | integer isInteger inRange same =>
    rw [ofWord?_of_isInteger isInteger, toInt64?_eq_some_iff.mpr ⟨inRange, same⟩, Option.map_some]
  | largeInteger isInteger beyond =>
    rw [ofWord?_of_isInteger isInteger, toInt64?_eq_none_iff.mpr beyond, Option.map_none]
  | float isDecimal nearest =>
    rcases ofWord?_of_isDecimal isDecimal with ⟨num, den, positive, rfl, denoted⟩
    rw [denoted, ofRatio?_of_isNearest _ positive nearest, Option.map_some]
  | largeFloat isDecimal beyond =>
    rcases ofWord?_of_isDecimal isDecimal with ⟨num, den, positive, rfl, denoted⟩
    rw [denoted, (ofRatio?_eq_none_iff _ positive).mpr beyond, Option.map_none]
  | symbol unknown noInteger noDecimal =>
    rcases ofText?_cases word.toList with ⟨number, isInteger⟩ | ⟨negative, number, isDecimal⟩ | unwritten
    · exact absurd isInteger (noInteger number)
    · exact absurd isDecimal (noDecimal negative number)
    · rw [ofWord?, literal?_eq_none_iff.mpr unknown, unwritten]

theorem ofWord?_eq_iff {outcome : Option Datum} : ofWord? word = outcome ↔ Means word outcome := by
  constructor
  · intro denoted
    rw [← denoted]
    exact means_ofWord? word
  · exact Means.ofWord?_eq

end Datum

/-- The reader takes a word for the datum that its text means, and refuses it just where its text is a
number out of range. The text of every integer is read back. -/
theorem Reader.next_word_iff (start depth : Nat) (word : String) (rest : List Token) :
    (∀ datum, next ⟨⟨.word, start, word⟩ :: rest, depth⟩ = .ok (some datum) ⟨rest, depth⟩ ↔
        Datum.Means word (some datum)) ∧
      (next ⟨⟨.word, start, word⟩ :: rest, depth⟩ =
          .error ⟨⟨start, byteLength word.toList⟩, .numberOutOfRange⟩ ⟨rest, depth⟩ ↔
        Datum.Means word none) ∧
      ∀ value : Int64, Datum.readFirst (Datum.integer value).print = .ok (some (.integer value)) := by
  have read : next ⟨⟨.word, start, word⟩ :: rest, depth⟩ = _ := readForm_word rfl
  simp only [← Datum.ofWord?_eq_iff, read]
  refine ⟨?_, ?_, ?_⟩
  · intro datum
    cases Datum.ofWord? word <;> simp
  · cases Datum.ofWord? word with
    | none => exact iff_of_true rfl rfl
    | some datum => simp
  · intro value
    exact Datum.readFirst_word (Datum.isWord_integer value.toInt) (Datum.ofWord?_integer value)

end LispCompiler
