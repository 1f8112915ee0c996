import LispCompiler.Proofs.Datum.RoundTrip
import LispCompiler.Proofs.Token.Tokenisation

/-!
String literals by their UTF-16 code units. Each part of a literal denotes code units: a character
that stands for itself, a short escape, or an escape of four hex digits, which may denote one half of
a surrogate pair. Main statement: a literal denotes a text just where its parts denote the code units
of the text, so it denotes some text just where its code units are well-formed.
-/

namespace LispCompiler

namespace Utf16

def ofChar (c : Char) : List Nat :=
  if c.toNat < 0x10000 then [c.toNat]
  else [0xd800 + (c.toNat - 0x10000) / 0x400, 0xdc00 + (c.toNat - 0x10000) % 0x400]

def ofText (text : List Char) : List Nat :=
  text.flatMap ofChar

/-- Surrogates come in pairs only, the high one first. -/
inductive WellFormed : List Nat → Prop
  | nil : WellFormed []
  | basic {unit : Nat} {units : List Nat}
      (noSurrogate : unit < 0xd800 ∨ 0xe000 ≤ unit ∧ unit < 0x10000) (rest : WellFormed units) :
      WellFormed (unit :: units)
  | pair {high low : Nat} {units : List Nat} (isHigh : 0xd800 ≤ high ∧ high < 0xdc00)
      (isLow : 0xdc00 ≤ low ∧ low < 0xe000) (rest : WellFormed units) :
      WellFormed (high :: low :: units)

open Quoted

section Units

variable {unit high low : Nat}

theorem isHighSurrogate_iff : isHighSurrogate unit = true ↔ 0xd800 ≤ unit ∧ unit < 0xdc00 := by
  simp [isHighSurrogate]

theorem isLowSurrogate_iff : isLowSurrogate unit = true ↔ 0xdc00 ≤ unit ∧ unit < 0xe000 := by
  simp [isLowSurrogate]

theorem char_bounds (c : Char) : c.toNat < 0xd800 ∨ 0xe000 ≤ c.toNat ∧ c.toNat < 0x110000 :=
  c.valid

theorem toNat_ofNat (valid : unit < 0xd800 ∨ 0xe000 ≤ unit ∧ unit < 0x110000) :
    (Char.ofNat unit).toNat = unit := by
  have isValid : unit.isValidChar := valid
  rw [Char.ofNat, dif_pos isValid]
  rfl

theorem ofChar_ofNat (noSurrogate : unit < 0xd800 ∨ 0xe000 ≤ unit ∧ unit < 0x10000) :
    ofChar (Char.ofNat unit) = [unit] := by
  rw [ofChar, toNat_ofNat (by omega), if_pos (by omega)]

theorem noSurrogate_of_lt (isUnit : unit < 0x10000) (noHigh : ¬isHighSurrogate unit = true)
    (noLow : ¬isLowSurrogate unit = true) : unit < 0xd800 ∨ 0xe000 ≤ unit ∧ unit < 0x10000 := by
  rw [isHighSurrogate_iff] at noHigh
  rw [isLowSurrogate_iff] at noLow
  omega

theorem ofChar_joinSurrogates (isHigh : isHighSurrogate high) (isLow : isLowSurrogate low) :
    ofChar (joinSurrogates high low) = [high, low] := by
  rw [isHighSurrogate_iff] at isHigh
  rw [isLowSurrogate_iff] at isLow
  rw [joinSurrogates, ofChar, toNat_ofNat (by omega), if_neg (by omega)]
  simp only [List.cons.injEq, and_true]
  omega

/-- The first unit tells how many units a character has, and they tell which it is. -/
theorem ofChar_append_inj {c d : Char} {units others : List Nat}
    (same : ofChar c ++ units = ofChar d ++ others) : c = d ∧ units = others := by
  have first := char_bounds c
  have second := char_bounds d
  rw [← Char.toNat_inj]
  unfold ofChar at same
  split at same
  · split at same
    · simpa using same
    · simp only [List.cons_append, List.cons.injEq] at same
      omega
  · split at same
    · simp only [List.cons_append, List.cons.injEq] at same
      omega
    · simp only [List.cons_append, List.nil_append, List.cons.injEq] at same
      exact ⟨by omega, same.2.2⟩

theorem ofChar_ne_cons (c : Char) {units others : List Nat} (isLow : isLowSurrogate unit) :
    ofChar c ++ others ≠ unit :: units := by
  have valid := char_bounds c
  rw [isLowSurrogate_iff] at isLow
  unfold ofChar
  split
  · simp only [List.cons_append, ne_eq, List.cons.injEq]
    omega
  · simp only [List.cons_append, ne_eq, List.cons.injEq]
    omega

/-- A high surrogate in front belongs to a character above the basic plane. -/
theorem exists_low_of_ofChar {c : Char} {units others : List Nat} (isHigh : isHighSurrogate high)
    (same : ofChar c ++ units = high :: others) :
    ∃ low, isLowSurrogate low ∧ others = low :: units ∧ c = joinSurrogates high low := by
  have valid := char_bounds c
  rw [isHighSurrogate_iff] at isHigh
  unfold ofChar at same
  split at same
  · simp only [List.cons_append, List.cons.injEq] at same
    omega
  · simp only [List.cons_append, List.nil_append, List.cons.injEq] at same
    rcases same with ⟨rfl, rfl⟩
    refine ⟨_, ?_, rfl, ?_⟩
    · rw [isLowSurrogate_iff]
      omega
    · rw [← Char.toNat_inj, joinSurrogates, toNat_ofNat (by omega)]
      omega

theorem wellFormed_ofText (text : List Char) : WellFormed (ofText text) := by
  induction text with
  | nil => exact .nil
  | cons c text ih =>
    have valid := char_bounds c
    rw [ofText, List.flatMap_cons]
    unfold ofChar
    split
    · exact .basic (by omega) ih
    · exact .pair (by omega) (by omega) ih

theorem exists_ofText {units : List Nat} (wellFormed : WellFormed units) :
    ∃ text, ofText text = units := by
  induction wellFormed with
  | nil => exact ⟨[], rfl⟩
  | @basic unit units noSurrogate rest ih =>
    rcases ih with ⟨text, rfl⟩
    refine ⟨Char.ofNat unit :: text, ?_⟩
    rw [ofText, List.flatMap_cons, ofChar_ofNat noSurrogate]
    rfl
  | @pair high low units isHigh isLow rest ih =>
    rcases ih with ⟨text, rfl⟩
    refine ⟨joinSurrogates high low :: text, ?_⟩
    rw [ofText, List.flatMap_cons,
      ofChar_joinSurrogates (isHighSurrogate_iff.mpr isHigh) (isLowSurrogate_iff.mpr isLow)]
    rfl

end Units

end Utf16

namespace Quoted

open Utf16

def IsHexDigit (c : Char) (value : Nat) : Prop :=
  "0123456789abcdef".toList[value]? = some c ∨ "0123456789ABCDEF".toList[value]? = some c

inductive IsCodeUnit : List Char → Nat → Prop
  | digits {a b c d : Char} {first second third fourth : Nat} (isFirst : IsHexDigit a first)
      (isSecond : IsHexDigit b second) (isThird : IsHexDigit c third) (isFourth : IsHexDigit d fourth) :
      IsCodeUnit [a, b, c, d] (((first * 16 + second) * 16 + third) * 16 + fourth)

def shortEscapes : List (Char × Char) :=
  [('"', '"'), ('\\', '\\'), ('/', '/'), ('b', '\x08'), ('f', '\x0c'), ('n', '\n'), ('r', '\r'),
    ('t', '\t')]

/-- A part of a string literal and the code units that it denotes. -/
inductive Part : List Char → List Nat → Prop
  | raw {c : Char} (visible : ' ' ≤ c) (noQuote : c ≠ '"') (noBackslash : c ≠ '\\') :
      Part [c] (ofChar c)
  | short {letter c : Char} (means : (letter, c) ∈ shortEscapes) : Part ['\\', letter] (ofChar c)
  | unit {digits : List Char} {unit : Nat} (isUnit : IsCodeUnit digits unit) :
      Part ('\\' :: 'u' :: digits) [unit]

inductive Denotes : List Char → List Nat → Prop
  | nil : Denotes [] []
  | cons {text raw : List Char} {units others : List Nat} (part : Part text units)
      (rest : Denotes raw others) : Denotes (text ++ raw) (units ++ others)

instance (c : Char) (value : Nat) : Decidable (IsHexDigit c value) :=
  inferInstanceAs (Decidable (_ ∨ _))

theorem hexValue?_small {c : Char} {value : Nat} (read : hexValue? c = some value) :
    c.toNat < 128 := by
  have bound : ∀ last : Char, last.toNat < 128 → c ≤ last → c.toNat < 128 :=
    fun last small below => Nat.lt_of_le_of_lt below small
  unfold hexValue? at read
  split at read
  · next digit => exact bound '9' (by decide) digit.2
  · split at read
    · next lower => exact bound 'f' (by decide) lower.2
    · split at read
      · next upper => exact bound 'F' (by decide) upper.2
      · cases read

theorem hexValue?_eq_some_iff {c : Char} {value : Nat} :
    hexValue? c = some value ↔ IsHexDigit c value := by
  constructor
  · intro read
    have all : ∀ code < 128,
        (hexValue? (Char.ofNat code)).all (fun value => IsHexDigit (Char.ofNat code) value) := by
      decide
    have digit := all c.toNat (hexValue?_small read)
    rw [Char.ofNat_toNat, read] at digit
    exact of_decide_eq_true digit
  · intro digit
    have lower : ∀ value < 16, "0123456789abcdef".toList[value]?.bind hexValue? = some value := by
      decide
    have upper : ∀ value < 16, "0123456789ABCDEF".toList[value]?.bind hexValue? = some value := by
      decide
    rcases digit with found | found
    · have read := lower value (List.getElem?_eq_some_iff.mp found).1
      rwa [found] at read
    · have read := upper value (List.getElem?_eq_some_iff.mp found).1
      rwa [found] at read

theorem shortEscape?_eq_some_iff {letter c : Char} :
    shortEscape? letter = some c ↔ (letter, c) ∈ shortEscapes := by
  unfold shortEscape?
  split <;> simp_all [shortEscapes, eq_comm]

theorem unit?_eq_some_iff {text rest : List Char} {unit : Nat} :
    unit? text = some (unit, rest) ↔ ∃ digits, IsCodeUnit digits unit ∧ text = digits ++ rest := by
  constructor
  · intro read
    unfold unit? at read
    split at read
    · simp only [Option.bind_eq_bind, Option.bind_eq_some_iff, Option.some.injEq, Prod.mk.injEq,
        hexValue?_eq_some_iff] at read
      rcases read with ⟨_, first, _, second, _, third, _, fourth, rfl, rfl⟩
      exact ⟨_, .digits first second third fourth, rfl⟩
    · cases read
  · intro read
    rcases read with ⟨digits, isUnit, rfl⟩
    cases isUnit with
    | digits first second third fourth =>
      rw [← hexValue?_eq_some_iff] at first second third fourth
      simp [unit?, first, second, third, fourth]

theorem IsHexDigit.lt {c : Char} {value : Nat} (digit : IsHexDigit c value) : value < 16 := by
  rcases digit with found | found
  · exact (List.getElem?_eq_some_iff.mp found).1
  · exact (List.getElem?_eq_some_iff.mp found).1

theorem IsHexDigit.ne_mark {c : Char} {value : Nat} (digit : IsHexDigit c value) :
    c ≠ '"' ∧ c ≠ '\\' := by
  rw [← hexValue?_eq_some_iff] at digit
  constructor
  · intro mark
    rw [mark] at digit
    cases digit
  · intro mark
    rw [mark] at digit
    cases digit

theorem IsCodeUnit.lt {digits : List Char} {unit : Nat} (isUnit : IsCodeUnit digits unit) :
    unit < 0x10000 := by
  cases isUnit with
  | digits first second third fourth =>
    have bounds := And.intro (And.intro first.lt second.lt) (And.intro third.lt fourth.lt)
    omega

inductive Written : Char → List Char → Prop
  | whole {c : Char} {text : List Char} (part : Part text (ofChar c)) : Written c text
  | pair {high low : Nat} {first second : List Char} (isHigh : isHighSurrogate high)
      (isLow : isLowSurrogate low) (isFirst : IsCodeUnit first high)
      (isSecond : IsCodeUnit second low) :
      Written (joinSurrogates high low) ('\\' :: 'u' :: first ++ '\\' :: 'u' :: second)

section Decoding

variable {c first : Char} {text raw rest behind : List Char}

theorem unicodeEscape_eq_ok (read : unicodeEscape text = .ok (c, rest)) :
    ∃ taken, text = taken ++ rest ∧ Written c ('\\' :: 'u' :: taken) := by
  unfold unicodeEscape at read
  split at read
  · cases read
  · next high after found =>
    rcases unit?_eq_some_iff.mp found with ⟨digits, isUnit, rfl⟩
    split at read
    · next isHigh =>
      split at read
      · split at read
        · cases read
        · next low last lowFound =>
          rcases unit?_eq_some_iff.mp lowFound with ⟨lowDigits, isLowUnit, rfl⟩
          split at read
          · next isLow =>
            simp only [Except.ok.injEq, Prod.mk.injEq] at read
            rcases read with ⟨rfl, rfl⟩
            exact ⟨digits ++ '\\' :: 'u' :: lowDigits, by simp, .pair isHigh isLow isUnit isLowUnit⟩
          · cases read
      · cases read
    · next noHigh =>
      split at read
      · cases read
      · next noLow =>
        simp only [Except.ok.injEq, Prod.mk.injEq] at read
        rcases read with ⟨rfl, rfl⟩
        refine ⟨digits, rfl, .whole ?_⟩
        rw [ofChar_ofNat (noSurrogate_of_lt isUnit.lt noHigh noLow)]
        exact .unit isUnit

theorem decodeFirst_eq_ok (noQuote : first ≠ '"') (read : decodeFirst first rest = .ok (c, behind)) :
    ∃ taken, first :: rest = taken ++ behind ∧ Written c taken := by
  unfold decodeFirst at read
  split at read
  · next backslash =>
    obtain rfl : first = '\\' := by simpa using backslash
    unfold escape at read
    split at read
    · cases read
    · next letter after =>
      split at read
      · next unit =>
        obtain rfl : letter = 'u' := by simpa using unit
        rcases unicodeEscape_eq_ok read with ⟨taken, rfl, written⟩
        exact ⟨_, rfl, written⟩
      · split at read
        · next meant means =>
          cases read
          exact ⟨['\\', letter], rfl, .whole (.short (shortEscape?_eq_some_iff.mp means))⟩
        · cases read
  · next noBackslash =>
    split at read
    · cases read
    · next visible =>
      cases read
      exact ⟨[c], rfl, .whole (.raw (Char.not_lt.mp visible) noQuote (by simpa using noBackslash))⟩

theorem unicodeEscape_unit {digits : List Char} {unit : Nat} (isUnit : IsCodeUnit digits unit)
    (same : ofChar c = [unit]) : unicodeEscape (digits ++ rest) = .ok (c, rest) := by
  have valid := char_bounds c
  obtain ⟨rfl, small⟩ : c.toNat = unit ∧ c.toNat < 0x10000 := by
    unfold ofChar at same
    split at same <;> simp_all
  have noHigh : isHighSurrogate c.toNat = false := by
    rw [← Bool.not_eq_true, isHighSurrogate_iff]
    omega
  have noLow : isLowSurrogate c.toNat = false := by
    rw [← Bool.not_eq_true, isLowSurrogate_iff]
    omega
  have read : unit? (digits ++ rest) = some (c.toNat, rest) :=
    unit?_eq_some_iff.mpr ⟨digits, isUnit, rfl⟩
  simp [unicodeEscape, read, noHigh, noLow]

theorem unicodeEscape_pair {high low : Nat} {first second : List Char}
    (isHigh : isHighSurrogate high) (isLow : isLowSurrogate low) (isFirst : IsCodeUnit first high)
    (isSecond : IsCodeUnit second low) :
    unicodeEscape (first ++ '\\' :: 'u' :: (second ++ rest)) =
      .ok (joinSurrogates high low, rest) := by
  have readHigh : unit? (first ++ '\\' :: 'u' :: (second ++ rest)) = some (high, _) :=
    unit?_eq_some_iff.mpr ⟨first, isFirst, rfl⟩
  have readLow : unit? (second ++ rest) = some (low, rest) :=
    unit?_eq_some_iff.mpr ⟨second, isSecond, rfl⟩
  simp only [unicodeEscape, readHigh, readLow, isHigh, isLow, if_true]

theorem ofChar_inj {d : Char} (same : ofChar c = ofChar d) : c = d :=
  (ofChar_append_inj (congrArg (· ++ []) same)).1

theorem decode_part {units : List Nat} (part : Part text units) (same : units = ofChar c) :
    decode (text ++ rest) = (decode rest).map (c :: ·) := by
  cases part with
  | raw visible noQuote noBackslash =>
    rw [← ofChar_inj same]
    exact decode_cons (decodeFirst_raw visible noBackslash)
  | short means =>
    rw [← ofChar_inj same]
    exact decode_cons (decodeFirst_backslash.trans (escape_short (shortEscape?_eq_some_iff.mpr means)))
  | unit isUnit =>
    exact decode_cons (decodeFirst_backslash.trans (unicodeEscape_unit isUnit same.symm))

theorem decode_written (written : Written c text) :
    decode (text ++ rest) = (decode rest).map (c :: ·) := by
  cases written with
  | whole part => exact decode_part part rfl
  | pair isHigh isLow isFirst isSecond =>
    rw [List.append_assoc]
    exact decode_cons
      (decodeFirst_backslash.trans (unicodeEscape_pair isHigh isLow isFirst isSecond))

/-- The parts of a text end at the same quote as the text. -/
theorem Part.endsAtQuote {units : List Nat} (part : Part text units) :
    Token.EndsAtQuote (text ++ rest) ↔ Token.EndsAtQuote rest := by
  cases part with
  | raw visible noQuote noBackslash => exact Token.endsAtQuote_cons noQuote noBackslash
  | short means => exact Token.endsAtQuote_pair
  | unit isUnit =>
    cases isUnit with
    | digits first second third fourth =>
      exact Token.endsAtQuote_pair.trans
        ((Token.endsAtQuote_cons first.ne_mark.1 first.ne_mark.2).trans
          ((Token.endsAtQuote_cons second.ne_mark.1 second.ne_mark.2).trans
            ((Token.endsAtQuote_cons third.ne_mark.1 third.ne_mark.2).trans
              (Token.endsAtQuote_cons fourth.ne_mark.1 fourth.ne_mark.2))))

theorem Written.endsAtQuote (written : Written c text) :
    Token.EndsAtQuote (text ++ rest) ↔ Token.EndsAtQuote rest := by
  cases written with
  | whole part => exact part.endsAtQuote
  | pair isHigh isLow isFirst isSecond =>
    rw [List.append_assoc]
    exact (Part.unit isFirst).endsAtQuote.trans (Part.unit isSecond).endsAtQuote

theorem Written.denotes {units : List Nat} (written : Written c text) (behind : Denotes rest units) :
    Denotes (text ++ rest) (ofChar c ++ units) := by
  cases written with
  | whole part => exact .cons part behind
  | @pair high low _ _ isHigh isLow isFirst isSecond =>
    rw [ofChar_joinSurrogates isHigh isLow, List.append_assoc]
    change Denotes _ ([high] ++ ([low] ++ units))
    exact .cons (.unit isFirst) (.cons (.unit isSecond) behind)

/-- A part denotes a character or one half of a surrogate pair. -/
theorem Part.cases {units : List Nat} (part : Part text units) :
    (∃ c, units = ofChar c ∧ Written c text) ∨
      ∃ digits unit, text = '\\' :: 'u' :: digits ∧ units = [unit] ∧ IsCodeUnit digits unit ∧
        (isHighSurrogate unit ∨ isLowSurrogate unit) := by
  cases part with
  | raw visible noQuote noBackslash => exact .inl ⟨_, rfl, .whole (.raw visible noQuote noBackslash)⟩
  | short means => exact .inl ⟨_, rfl, .whole (.short means)⟩
  | @unit digits unit isUnit =>
    by_cases surrogate : isHighSurrogate unit ∨ isLowSurrogate unit
    · exact .inr ⟨digits, unit, rfl, rfl, isUnit, surrogate⟩
    · rw [not_or] at surrogate
      have single := ofChar_ofNat (noSurrogate_of_lt isUnit.lt surrogate.1 surrogate.2)
      exact .inl ⟨Char.ofNat unit, single.symm, .whole (single ▸ .unit isUnit)⟩

theorem Denotes.split {units : List Nat} (denotes : Denotes raw units) :
    (raw = [] ∧ units = []) ∨
      ∃ text behind first others, raw = text ++ behind ∧ units = first ++ others ∧
        Part text first ∧ Denotes behind others := by
  cases denotes with
  | nil => exact .inl ⟨rfl, rfl⟩
  | cons part rest => exact .inr ⟨_, _, _, _, rfl, rfl, part, rest⟩

theorem ofChar_append_ne_nil {units : List Nat} : ofChar c ++ units ≠ [] := by
  unfold ofChar
  split <;> simp

theorem Denotes.exists_written {units : List Nat} (denotes : Denotes raw (ofChar c ++ units)) :
    ∃ taken behind, raw = taken ++ behind ∧ Written c taken ∧ Denotes behind units := by
  rcases denotes.split with ⟨-, none⟩ | ⟨text, behind, first, others, rfl, same, part, rest⟩
  · exact absurd none ofChar_append_ne_nil
  rcases part.cases with ⟨d, rfl, written⟩ | ⟨digits, unit, rfl, rfl, isUnit, surrogate⟩
  · rcases ofChar_append_inj same with ⟨rfl, rfl⟩
    exact ⟨text, behind, rfl, written, rest⟩
  rcases surrogate with isHigh | isLow
  · rcases exists_low_of_ofChar isHigh same with ⟨low, isLow, rfl, joined⟩
    rcases rest.split with ⟨-, none⟩ | ⟨text, behind, first, others, rfl, same, low, last⟩
    · cases none
    rcases low.cases with ⟨d, rfl, written⟩ | ⟨lowDigits, unit, rfl, rfl, isLowUnit, -⟩
    · exact absurd same.symm (ofChar_ne_cons d isLow)
    · cases same
      rw [joined]
      exact ⟨_, behind, by simp, .pair isHigh isLow isUnit isLowUnit, last⟩
  · exact absurd same (ofChar_ne_cons c isLow)

theorem Denotes.eq_nil (denotes : Denotes raw []) : raw = [] := by
  rcases denotes.split with ⟨none, -⟩ | ⟨text, behind, first, others, rfl, same, part, rest⟩
  · exact none
  rcases part.cases with ⟨d, rfl, written⟩ | ⟨digits, unit, rfl, rfl, isUnit, surrogate⟩
  · exact absurd same.symm ofChar_append_ne_nil
  · cases same

theorem decode_of_denotes (denotes : Denotes raw (ofText text)) : decode raw = .ok text := by
  induction text generalizing raw with
  | nil =>
    rw [denotes.eq_nil]
    exact decode_nil
  | cons c text ih =>
    rw [ofText, List.flatMap_cons] at denotes
    rcases denotes.exists_written with ⟨taken, behind, rfl, written, rest⟩
    rw [decode_written written, ih rest]
    rfl

theorem denotes_of_decode (ends : Token.EndsAtQuote raw) (decoded : decode raw = .ok text) :
    Denotes raw (ofText text) := by
  fun_induction decode raw generalizing text with
  | case1 =>
    cases decoded
    exact .nil
  | case2 first rest flaw read => cases decoded
  | case3 first rest c behind read shorter ih =>
    have noQuote : first ≠ '"' := by
      intro quote
      rw [quote] at ends
      exact Token.not_escapesNext_nil (ends.guarded [] rest rfl)
    rcases decodeFirst_eq_ok noQuote read with ⟨taken, whole, written⟩
    rw [whole] at ends ⊢
    cases inner : decode behind with
    | error flaw => simp [inner, Except.map] at decoded
    | ok others =>
      rw [inner] at decoded
      cases decoded
      exact written.denotes (ih (written.endsAtQuote.mp ends) inner)

end Decoding

end Quoted

open Utf16 Quoted

namespace Token

variable {token : Token} {source : String}

theorem exists_quoted_of_mem_lex (member : token ∈ lex source)
    (quoted : token.kind = .plainString ∨ token.kind = .escapedString) :
    ∃ behind, token.StandsBefore 0 source.toList behind ∧
      token.text.toList = '"' :: (token.inner ++ ['"']) ∧ EndsAtQuote token.inner ∧
      (token.kind = .plainString → '\\' ∉ token.inner) := by
  obtain ⟨behind, stands, lexeme⟩ := (lexFrom_tokenises 0 source.toList).located token member
  have lexed : Lexeme token.kind token.text.toList behind := by
    apply lexeme
    rcases quoted with kind | kind <;> simp [kind]
  obtain ⟨body, whole, ends, plain⟩ := lexed.exists_body quoted
  have inside : token.inner = body := by simp [inner, whole]
  rw [inside]
  exact ⟨behind, stands, whole, ends, plain⟩

theorem endsAtQuote_of_mem_lex (member : token ∈ lex source)
    (quoted : token.kind = .plainString ∨ token.kind = .escapedString) :
    EndsAtQuote token.inner ∧ (token.kind = .plainString → '\\' ∉ token.inner) := by
  obtain ⟨behind, -, -, inside⟩ := exists_quoted_of_mem_lex member quoted
  exact inside

end Token

/-- A string token denotes a text just where its inside splits into parts whose code units are those
of the text, and some text just where the code units of its parts are well-formed. -/
theorem Token.stringText_codeUnits {token : Token} {source : String} (member : token ∈ lex source)
    (quoted : token.kind = .plainString ∨ token.kind = .escapedString) :
    (∀ text, token.stringText = .ok text ↔ Denotes token.inner (ofText text.toList)) ∧
      ((∃ text, token.stringText = .ok text) ↔
        ∃ units, Denotes token.inner units ∧ Utf16.WellFormed units) := by
  rcases endsAtQuote_of_mem_lex member quoted with ⟨ends, plain⟩
  have exactly : ∀ text, token.stringText = .ok text ↔ Denotes token.inner (ofText text.toList) := by
    intro text
    rw [stringText_eq_decode token plain]
    constructor
    · intro decoded
      apply denotes_of_decode ends
      cases whole : decode token.inner with
      | error flaw => simp [whole, Except.map] at decoded
      | ok chars =>
        rw [whole] at decoded
        cases decoded
        rw [String.toList_ofList]
    · intro denotes
      rw [decode_of_denotes denotes]
      simp [Except.map]
  refine ⟨exactly, ?_⟩
  constructor
  · intro succeeds
    rcases succeeds with ⟨text, decoded⟩
    exact ⟨_, (exactly text).mp decoded, wellFormed_ofText text.toList⟩
  · intro succeeds
    rcases succeeds with ⟨units, denotes, wellFormed⟩
    rcases exists_ofText wellFormed with ⟨text, rfl⟩
    exact ⟨String.ofList text, (exactly _).mpr (by rwa [String.toList_ofList])⟩

/-- A letter, a short escape and a surrogate pair in hex digits of both cases. -/
def Token.smileLiteral : Token :=
  ⟨.escapedString, 0, "\"a\\n\\uD83d\\uDe00\""⟩

theorem Token.stringText_codeUnits_smile :
    smileLiteral ∈ lex smileLiteral.text ∧ smileLiteral.stringText = .ok "a\n😀" := by
  have member : smileLiteral ∈ lex smileLiteral.text := by
    have piece : scan '"' (smileLiteral.text.toList.drop 1) =
        ⟨.escapedString, smileLiteral.text.toList, []⟩ := rfl
    have lexed : lex smileLiteral.text = smileLiteral :: _ := lexFrom_piece rfl piece
    rw [lexed]
    exact List.mem_cons_self
  refine ⟨member, ((stringText_codeUnits member (.inr rfl)).1 _).mpr ?_⟩
  have high : IsCodeUnit ['D', '8', '3', 'd'] (((13 * 16 + 8) * 16 + 3) * 16 + 13) :=
    .digits (.inr rfl) (.inl rfl) (.inl rfl) (.inl rfl)
  have low : IsCodeUnit ['D', 'e', '0', '0'] (((13 * 16 + 14) * 16 + 0) * 16 + 0) :=
    .digits (.inr rfl) (.inl rfl) (.inl rfl) (.inl rfl)
  have letter : Part ['a'] (ofChar 'a') := .raw (by decide) (by decide) (by decide)
  have newline : Part ['\\', 'n'] (ofChar '\n') := .short (by decide)
  exact .cons letter (.cons newline (.cons (.unit high) (.cons (.unit low) .nil)))

end LispCompiler
