import Mathlib
import LispCompiler.Proofs.Datum.RoundTrip
import LispCompiler.Proofs.Double.Shortest
import LispCompiler.Proofs.Target.OneLine

/-!
Reading back floats that were printed. The printer writes very large and very small floats with an
exponent, which the reader does not know. Main statement: a float is read back unchanged if it is zero
or from one ten-thousandth up to ten to the sixteenth in size, and as a symbol otherwise.
-/

namespace LispCompiler

open Double

inductive IsPointed : List Char → ℚ → Prop
  | intro {whole fraction : List Char} {number : ℚ} (wholeFilled : whole ≠ [])
      (fractionFilled : fraction ≠ []) (decimal : ∀ c ∈ whole ++ fraction, c.isDigit)
      (denotes : (Nat.ofDigitChars 10 (whole ++ fraction) 0 : ℚ) / 10 ^ fraction.length = number) :
      IsPointed (whole ++ '.' :: fraction) number

section Positional

variable {digits : Digits} {whole fraction : List Char} {before behind : Nat}

theorem zeros_isDigit (count : Nat) : ∀ c ∈ zeros count, c.isDigit := by
  intro c member
  rw [List.eq_of_mem_replicate member]
  decide

/-- Zeros on both sides of some digits do not change the number if the point is where the exponent
has it. -/
theorem isPointed_padded (wholeFilled : whole ≠ []) (fractionFilled : fraction ≠ [])
    (decimal : ∀ c ∈ digits.text, c.isDigit)
    (padded : whole ++ fraction = zeros before ++ digits.text ++ zeros behind)
    (point : digits.exponent + 1 + fraction.length = digits.text.length + behind) :
    IsPointed (whole ++ '.' :: fraction) digits.value := by
  refine .intro wholeFilled fractionFilled ?_ ?_
  · rw [padded, List.forall_mem_append, List.forall_mem_append]
    exact ⟨⟨zeros_isDigit before, decimal⟩, zeros_isDigit behind⟩
  · have shift : digits.exponent + 1 - digits.text.length = (behind : ℤ) - fraction.length := by omega
    rw [padded, zeros, zeros, Nat.ofDigitChars_append, Nat.ofDigitChars_append,
      Nat.ofDigitChars_replicate_zero, Nat.ofDigitChars_replicate_zero, Nat.mul_zero, Digits.value, shift,
      zpow_sub₀ (by norm_num), zpow_natCast, zpow_natCast]
    push_cast
    ring

theorem positional_isPointed (filled : digits.text ≠ []) (decimal : ∀ c ∈ digits.text, c.isDigit) :
    IsPointed digits.positional digits.value := by
  have long := List.length_pos_iff.mpr filled
  unfold Digits.positional
  split
  · next places exponent =>
    have padded : ['0'] ++ (zeros places ++ digits.text) =
        zeros (places + 1) ++ digits.text ++ zeros 0 := by
      simp [zeros, List.replicate_succ]
    refine isPointed_padded (by decide) (List.append_ne_nil_of_right_ne_nil _ filled) decimal padded ?_
    rw [exponent, List.length_append, zeros, List.length_replicate]
    omega
  · next place exponent =>
    dsimp only
    split
    · next short =>
      have padded : digits.text ++ zeros (place + 1 - digits.text.length) ++ ['0'] =
          zeros 0 ++ digits.text ++ zeros (place + 1 - digits.text.length + 1) := by
        simp [zeros, List.replicate_succ']
      refine isPointed_padded (List.append_ne_nil_of_left_ne_nil filled _) (by decide) decimal padded ?_
      rw [exponent, List.length_singleton, Int.ofNat_eq_natCast]
      omega
    · next beyond =>
      have padded : digits.text.take (place + 1) ++ digits.text.drop (place + 1) =
          zeros 0 ++ digits.text ++ zeros 0 := by
        simp [zeros]
      refine isPointed_padded ?_ ?_ decimal padded ?_
      · rw [← List.length_pos_iff, List.length_take]
        omega
      · rw [← List.length_pos_iff, List.length_drop]
        omega
      · rw [exponent, List.length_drop, Int.ofNat_eq_natCast]
        omega

end Positional

section Reading

variable {text : List Char} {number : ℚ}

theorem Numeral.ofUnsigned?_pointed (negative : Bool) {whole fraction : List Char}
    (wholeFilled : whole ≠ []) (fractionFilled : fraction ≠ [])
    (decimal : ∀ c ∈ whole ++ fraction, c.isDigit) :
    ofUnsigned? negative (whole ++ '.' :: fraction) =
      some ⟨negative, whole, some fraction⟩ := by
  rw [List.forall_mem_append] at decimal
  have digits : (whole ++ '.' :: fraction).takeWhile Char.isDigit = whole := by
    rw [List.takeWhile_append_of_pos decimal.1]
    simp
  have rest : (whole ++ '.' :: fraction).dropWhile Char.isDigit = '.' :: fraction := by
    rw [List.dropWhile_append_of_pos decimal.1]
    simp
  have all : fraction.all Char.isDigit := List.all_eq_true.mpr decimal.2
  simp [ofUnsigned?, digits, rest, wholeFilled, fractionFilled, all]

theorem Numeral.ofText?_sign (negative : Bool) (unsigned : text.head? ≠ some '-') :
    ofText? (sign negative ++ text) = ofUnsigned? negative text := by
  cases negative with
  | true => rfl
  | false =>
    unfold ofText?
    split
    · next rest first => simp_all [sign]
    · rfl

theorem head?_ne_minus {first : Char} {rest : List Char} (digit : first.isDigit) :
    (first :: rest).head? ≠ some '-' := by
  intro minus
  rw [Option.some.inj minus] at digit
  exact absurd digit (by decide)

theorem Datum.ofWord?_pointed {negative : Bool} {rank : Fin finiteCount} (pointed : IsPointed text number)
    (nearest : IsNearest rank number) :
    ofWord? (String.ofList (sign negative ++ text)) = some (.float (.finite negative rank)) := by
  cases pointed with
  | @intro whole fraction _ wholeFilled fractionFilled decimal denotes =>
    have unsigned : (whole ++ '.' :: fraction).head? ≠ some '-' := by
      cases whole with
      | nil => exact absurd rfl wholeFilled
      | cons first rest => exact head?_ne_minus (decimal first List.mem_cons_self)
    have written : Numeral.ofText? (String.ofList (sign negative ++ (whole ++ '.' :: fraction))).toList =
        some ⟨negative, whole, some fraction⟩ := by
      rw [String.toList_ofList, Numeral.ofText?_sign negative unsigned]
      exact Numeral.ofUnsigned?_pointed negative wholeFilled fractionFilled decimal
    have positive : 0 < 10 ^ fraction.length := by positivity
    rw [← denotes] at nearest
    rw [ofWord?, literal?_of_written written, written]
    dsimp only [Numeral.value?]
    rw [Nat.pow_eq, ofRatio?_of_isNearest negative positive (by exact_mod_cast nearest), Option.map_some]

theorem Numeral.ofUnsigned?_eq_none (negative : Bool) {c : Char} (member : c ∈ text)
    (letter : c.isDigit = false) (other : c ≠ '.') : ofUnsigned? negative text = none := by
  rw [← List.takeWhile_append_dropWhile (p := Char.isDigit) (l := text), List.mem_append] at member
  have behind : c ∈ text.dropWhile Char.isDigit := by
    rcases member with leading | behind
    · rw [List.mem_takeWhile_imp leading] at letter
      cases letter
    · exact behind
  unfold ofUnsigned?
  dsimp only
  split
  · rfl
  split
  · next nothing =>
    rw [nothing] at behind
    cases behind
  · next fraction pointed =>
    have inFraction : c ∈ fraction := by
      rw [pointed, List.mem_cons] at behind
      exact behind.resolve_left other
    have undigital : fraction.all Char.isDigit = false :=
      List.all_eq_false.mpr ⟨c, inFraction, by simp [letter]⟩
    simp [undigital]
  · rfl

/-- No literal word has a digit in it. -/
theorem Datum.literal?_of_digit {word : String} {c : Char} (member : c ∈ word.toList) (digit : c.isDigit) :
    literal? word = none := by
  have digital : word.toList.any Char.isDigit := List.any_eq_true.mpr ⟨c, member, digit⟩
  have true_letters : "true".toList.any Char.isDigit = false := by decide
  have false_letters : "false".toList.any Char.isDigit = false := by decide
  have nil_letters : "nil".toList.any Char.isDigit = false := by decide
  unfold literal?
  split <;> simp_all

theorem Datum.ofWord?_scientific (negative : Bool) {digits : Digits} (filled : digits.text ≠ [])
    (decimal : ∀ c ∈ digits.text, c.isDigit) :
    let word := String.ofList (sign negative ++ digits.scientific)
    ofWord? word = some (.symbol word) := by
  intro word
  rcases List.exists_cons_of_ne_nil filled with ⟨first, rest, text⟩
  have digit : first.isDigit := decimal first (by rw [text]; exact List.mem_cons_self)
  have starts : ∃ behind, digits.scientific = first :: behind ∧ 'e' ∈ behind := by
    unfold Digits.scientific
    rw [text, List.take_succ_cons, List.take_zero]
    exact ⟨_, rfl, List.mem_append_right _ List.mem_cons_self⟩
  rcases starts with ⟨behind, whole, exponent⟩
  have characters : word.toList = sign negative ++ first :: behind := by
    rw [String.toList_ofList, whole]
  have unwritten : Numeral.ofText? word.toList = none := by
    rw [characters, Numeral.ofText?_sign negative (head?_ne_minus digit)]
    exact Numeral.ofUnsigned?_eq_none negative (List.mem_cons_of_mem first exponent) (by decide) (by decide)
  have unknown : literal? word = none := by
    refine literal?_of_digit ?_ digit
    rw [characters]
    exact List.mem_append_right _ List.mem_cons_self
  rw [ofWord?, unknown, unwritten]

end Reading

section RoundTrip

theorem isWordChar_of_isSimple {c : Char} (simple : isSimple c) : Token.isWordChar c ∧ c ≠ ';' := by
  have differs : ∀ other : Char, isSimple other = false → c ≠ other := by
    intro other complex same
    rw [← same, simple] at complex
    cases complex
  simp (disch := decide) [Token.isWordChar, Token.isBlank, Token.isStructural, differs]

theorem isWord_render (value : Double) : Token.IsWord value.render.toList := by
  have plain := fun c member => isWordChar_of_isSimple (render_simple value c member)
  refine ⟨Filled.iff_toList.mp (Filled.float value), ?_, fun c member => (plain c member).1⟩
  intro comment
  exact (plain ';' (List.mem_of_head? comment)).2 rfl

theorem Datum.readFirst_word {word : String} {datum : Datum} (isWord : Token.IsWord word.toList)
    (denotes : ofWord? word = some datum) : readFirst word = .ok (some datum) := by
  rcases lexesAs_word isWord denotes 0 [] (by simp [Token.Separated]) with ⟨tokens, after, lexed, form⟩
  rw [List.append_nil] at lexed
  exact Reader.readFirst_complete lexed form

theorem Datum.finite_of_readFirst {source : String} {value : Double}
    (read : readFirst source = .ok (some (.float value))) :
    ∃ negative rank, value = .finite negative rank := by
  rcases Reader.readFirst_sound read with ⟨tokens, rest, -, form⟩
  cases form with
  | atom single =>
    cases single with
    | literal _ known =>
      unfold literal? at known
      split at known <;> cases known
    | number _ _ _ inRange =>
      unfold Numeral.value? at inRange
      split at inRange
      · rcases Option.map_eq_some_iff.mp inRange with ⟨integer, -, other⟩
        cases other
      · rcases Option.map_eq_some_iff.mp inRange with ⟨rounded, ratio, same⟩
        rw [Datum.float.injEq] at same
        rw [← same]
        exact ⟨_, finite_of_ofRatio? ratio⟩

def Double.InPositionalRange : Double → Prop
  | finite _ rank => rank.val = 0 ∨ 10 ^ (-4 : ℤ) ≤ size rank ∧ size rank < 10 ^ (16 : ℤ)
  | _ => False

variable {negative : Bool} {rank : Fin finiteCount}

theorem Datum.ofWord?_render_zero (zero : rank.val = 0) :
    ofWord? (finite negative rank).render = some (.float (.finite negative rank)) := by
  have pointed : IsPointed (['0'] ++ '.' :: ['0']) 0 :=
    .intro (by decide) (by decide) (zeros_isDigit 2) (by norm_num [Nat.ofDigitChars])
  have nearest : IsNearest rank 0 := by
    rw [zero]
    exact isNearest_zero
  rw [render, if_pos zero]
  exact ofWord?_pointed pointed nearest

theorem Double.render_form_iff (positive : 0 < rank.val) :
    (-4 ≤ (shortest rank).exponent ∧ (shortest rank).exponent < 16) ↔
      (finite negative rank).InPositionalRange := by
  rw [neg_four_le_exponent_iff positive, ← not_le, sixteen_le_exponent_iff positive, not_le]
  exact (or_iff_right positive.ne').symm

theorem Datum.ofWord?_render_positional (within : (finite negative rank).InPositionalRange) :
    ofWord? (finite negative rank).render = some (.float (.finite negative rank)) := by
  rcases Nat.eq_zero_or_pos rank with zero | positive
  · exact ofWord?_render_zero zero
  rw [render, if_neg positive.ne', Digits.render, if_pos ((Double.render_form_iff positive).mpr within)]
  exact ofWord?_pointed (positional_isPointed (shortest_text_ne_nil positive) (shortest_isDigit rank))
    (shortest_isNearest positive)

theorem Datum.ofWord?_render_scientific (beyond : ¬(finite negative rank).InPositionalRange) :
    ofWord? (finite negative rank).render = some (.symbol (finite negative rank).render) := by
  have positive : 0 < rank.val := by
    by_contra zero
    exact beyond (.inl (by omega))
  rw [render, if_neg positive.ne', Digits.render, if_neg (mt (Double.render_form_iff positive).mp beyond)]
  exact ofWord?_scientific negative (shortest_text_ne_nil positive) (shortest_isDigit rank)

/-- A float that was read is printed so that it is read back, sign included, if it is zero or of a middle
size. Text with an exponent is read as a symbol. -/
theorem Datum.readFirst_print_float {source : String} {value : Double}
    (read : readFirst source = .ok (some (.float value))) :
    (value.InPositionalRange →
        readFirst (Datum.float value).print = .ok (some (.float value))) ∧
      (¬value.InPositionalRange →
        readFirst (Datum.float value).print = .ok (some (.symbol (Datum.float value).print))) := by
  rcases finite_of_readFirst read with ⟨negative, rank, rfl⟩
  rw [print]
  constructor
  · intro within
    exact readFirst_word (isWord_render _) (ofWord?_render_positional within)
  · intro beyond
    exact readFirst_word (isWord_render _) (ofWord?_render_scientific beyond)

theorem Datum.readFirst_print_float_tenth :
    ∃ value, readFirst "-0.1000" = .ok (some (.float value)) ∧
      readFirst (Datum.float value).print = .ok (some (.float value)) := by
  have read : readFirst "-0.1000" =
      .ok (some (.float (.finite true ⟨0x3FB999999999999A, by decide⟩))) := by
    refine readFirst_word (Token.isWord_of_all (by decide) (by decide) (by decide)) ?_
    decide +kernel
  have form : -4 ≤ (shortest 0x3FB999999999999A).exponent ∧
      (shortest 0x3FB999999999999A).exponent < 16 := by
    decide +kernel
  refine ⟨_, read, (readFirst_print_float read).1 ?_⟩
  exact (Double.render_form_iff (by decide)).mp form

theorem Datum.readFirst_print_float_exponent :
    ∃ value, readFirst "10000000000000000.0" = .ok (some (.float value)) ∧
      (Datum.float value).print = "1e16" ∧ readFirst "1e16" = .ok (some (.symbol "1e16")) := by
  refine ⟨.finite false ⟨0x4341C37937E08000, by decide⟩, ?_, ?_, ?_⟩
  · refine readFirst_word (Token.isWord_of_all (by decide) (by decide) (by decide)) ?_
    decide +kernel
  · decide +kernel
  · refine readFirst_word (Token.isWord_of_all (by decide) (by decide) (by decide)) ?_
    decide +kernel

end RoundTrip

end LispCompiler
