import LispCompiler.Text.Quoted

namespace LispCompiler.Quoted

inductive Escaped (c : Char) : List Char → Prop
  | short {letter : Char} (means : shortEscape? letter = some c) : Escaped c ['\\', letter]
  | unit (small : c.toNat < 256) :
      Escaped c ['\\', 'u', '0', '0', Nat.digitChar (c.toNat / 16), Nat.digitChar (c.toNat % 16)]
  | raw (visible : ' ' ≤ c) (noQuote : c ≠ '"') (noBackslash : c ≠ '\\') : Escaped c [c]

theorem escapeChar_escaped (c : Char) : Escaped c (escapeChar c) := by
  unfold escapeChar
  split
  · exact .short rfl
  · exact .short rfl
  · exact .short rfl
  · exact .short rfl
  · exact .short rfl
  · exact .short rfl
  · exact .short rfl
  · next noQuote noBackslash _ _ _ _ _ =>
    split
    · next special =>
      simp only [Bool.or_eq_true, decide_eq_true_eq, beq_iff_eq] at special
      rcases special with control | delete
      · have below : c.toNat < ' '.toNat := control
        exact .unit (Nat.lt_trans below (by decide))
      · rw [delete]
        exact .unit (by decide)
    · next ordinary =>
      simp only [Bool.or_eq_true, decide_eq_true_eq, not_or] at ordinary
      exact .raw (Char.not_lt.mp ordinary.1) noQuote noBackslash

theorem encode_cons (c : Char) (text : List Char) : encode (c :: text) = escapeChar c ++ encode text :=
  List.flatMap_cons

theorem toList_quote (text : String) : (quote text).toList = '"' :: (encode text.toList ++ ['"']) :=
  String.toList_ofList

theorem hexValue?_digitChar {digit : Nat} (bound : digit < 16) :
    hexValue? (Nat.digitChar digit) = some digit := by
  revert digit
  decide

theorem digitChar_ne_mark {digit : Nat} (bound : digit < 16) :
    Nat.digitChar digit ≠ '"' ∧ Nat.digitChar digit ≠ '\\' := by
  revert digit
  decide

section Decoding

variable {first c : Char} {rest behind : List Char}

theorem decode_nil : decode [] = .ok [] := by
  rw [decode]

theorem decode_cons (read : decodeFirst first rest = .ok (c, behind)) :
    decode (first :: rest) = (decode behind).map (c :: ·) := by
  rw [decode]
  split
  · next failed => simp [read] at failed
  · next found =>
    rw [read] at found
    cases found
    rfl

theorem decode_cons_error {flaw : Flaw} (read : decodeFirst first rest = .error flaw) :
    decode (first :: rest) = .error flaw := by
  rw [decode]
  split
  · next failed =>
    rw [read] at failed
    cases failed
    rfl
  · next found => simp [read] at found

theorem decodeFirst_backslash : decodeFirst '\\' rest = escape rest := by
  simp [decodeFirst]

theorem decodeFirst_raw (visible : ' ' ≤ c) (noBackslash : c ≠ '\\') :
    decodeFirst c rest = .ok (c, rest) := by
  simp [decodeFirst, noBackslash, Char.not_lt.mpr visible]

theorem escape_short {letter : Char} (means : shortEscape? letter = some c) :
    escape (letter :: rest) = .ok (c, rest) := by
  have noUnit : letter ≠ 'u' := by
    rintro rfl
    simp [shortEscape?] at means
  simp [escape, noUnit, means]

theorem escape_unit (small : c.toNat < 256) :
    escape ('u' :: '0' :: '0' :: Nat.digitChar (c.toNat / 16) :: Nat.digitChar (c.toNat % 16) :: rest) =
      .ok (c, rest) := by
  have high := hexValue?_digitChar (show c.toNat / 16 < 16 by omega)
  have low := hexValue?_digitChar (show c.toNat % 16 < 16 by omega)
  have zero : hexValue? '0' = some 0 := by decide
  have whole : c.toNat / 16 * 16 + c.toNat % 16 = c.toNat := by omega
  have noHigh : isHighSurrogate c.toNat = false := by simp [isHighSurrogate]; omega
  have noLow : isLowSurrogate c.toNat = false := by simp [isLowSurrogate]; omega
  simp [escape, unicodeEscape, unit?, high, low, zero, whole, noHigh, noLow]

theorem decode_escaped {written : List Char} (escaped : Escaped c written) :
    decode (written ++ rest) = (decode rest).map (c :: ·) := by
  cases escaped with
  | short means => exact decode_cons (decodeFirst_backslash.trans (escape_short means))
  | unit small => exact decode_cons (decodeFirst_backslash.trans (escape_unit small))
  | raw visible _ noBackslash => exact decode_cons (decodeFirst_raw visible noBackslash)

end Decoding

theorem decode_encode (text : List Char) : decode (encode text) = .ok text := by
  induction text with
  | nil => exact decode_nil
  | cons c text ih =>
    rw [encode_cons, decode_escaped (escapeChar_escaped c), ih]
    rfl

theorem decodePlain_cons (c : Char) (text : List Char) :
    decodePlain (c :: text) =
      if c < ' ' then .error .controlCharacter else (decodePlain text).map (c :: ·) := by
  by_cases control : c < ' '
  · simp [decodePlain, control]
  · simp only [decodePlain, List.any_cons, control, decide_false, Bool.false_or, if_false]
    split <;> rfl

theorem decode_of_plain {raw : List Char} (plain : '\\' ∉ raw) : decode raw = decodePlain raw := by
  induction raw with
  | nil => exact decode_nil
  | cons c raw ih =>
    rw [List.mem_cons, not_or] at plain
    rw [decodePlain_cons, ← ih plain.2]
    by_cases control : c < ' '
    · rw [if_pos control]
      apply decode_cons_error
      simp [decodeFirst, Ne.symm plain.1, control]
    · rw [if_neg control]
      exact decode_cons (decodeFirst_raw (Char.not_lt.mp control) (Ne.symm plain.1))

section Visible

variable {c : Char} {text rest : List Char}

def TakesVisible (text rest : List Char) : Prop :=
  ∃ taken, text = taken ++ rest ∧ ∀ c ∈ taken, ' ' ≤ c

theorem TakesVisible.cons {first : Char} (visible : ' ' ≤ first) (behind : TakesVisible text rest) :
    TakesVisible (first :: text) rest := by
  rcases behind with ⟨taken, rfl, others⟩
  exact ⟨first :: taken, rfl, List.forall_mem_cons.mpr ⟨visible, others⟩⟩

theorem TakesVisible.nil : TakesVisible text text :=
  ⟨[], rfl, nofun⟩

theorem TakesVisible.trans {middle : List Char} (first : TakesVisible text middle)
    (second : TakesVisible middle rest) : TakesVisible text rest := by
  rcases first with ⟨taken, rfl, visible⟩
  rcases second with ⟨more, rfl, others⟩
  exact ⟨taken ++ more, by simp, List.forall_mem_append.mpr ⟨visible, others⟩⟩

theorem hexValue?_visible {value : Nat} (read : hexValue? c = some value) : ' ' ≤ c := by
  unfold hexValue? at read
  split at read
  · next digit => exact Char.le_trans (by decide) digit.1
  · split at read
    · next lower => exact Char.le_trans (by decide) lower.1
    · split at read
      · next upper => exact Char.le_trans (by decide) upper.1
      · cases read

theorem unit?_visible {unit : Nat} (read : unit? text = some (unit, rest)) :
    TakesVisible text rest := by
  unfold unit? at read
  split at read
  · simp only [Option.bind_eq_bind, Option.bind_eq_some_iff, Option.some.injEq, Prod.mk.injEq] at read
    rcases read with ⟨_, first, _, second, _, third, _, fourth, _, rfl⟩
    exact .cons (hexValue?_visible first) (.cons (hexValue?_visible second)
      (.cons (hexValue?_visible third) (.cons (hexValue?_visible fourth) .nil)))
  · cases read

theorem unicodeEscape_visible (read : unicodeEscape text = .ok (c, rest)) : TakesVisible text rest := by
  unfold unicodeEscape at read
  split at read
  · cases read
  · next first behind found =>
    have high := unit?_visible found
    split at read
    · split at read
      · split at read
        · cases read
        · next second after low =>
          split at read
          · obtain ⟨-, rfl⟩ : _ ∧ after = rest := by simpa using read
            exact high.trans (.cons (by decide) (.cons (by decide) (unit?_visible low)))
          · cases read
      · cases read
    · split at read
      · cases read
      · obtain ⟨-, rfl⟩ : _ ∧ behind = rest := by simpa using read
        exact high

theorem shortEscape?_visible {letter : Char} (means : shortEscape? letter = some c) : ' ' ≤ letter := by
  unfold shortEscape? at means
  split at means
  all_goals first | decide | cases means

theorem decodeFirst_visible {first : Char} (read : decodeFirst first text = .ok (c, rest)) :
    TakesVisible (first :: text) rest := by
  unfold decodeFirst at read
  split at read
  · next backslash =>
    obtain rfl : first = '\\' := by simpa using backslash
    refine .cons (by decide) ?_
    unfold escape at read
    split at read
    · cases read
    · next letter behind =>
      split at read
      · next unit =>
        obtain rfl : letter = 'u' := by simpa using unit
        exact .cons (by decide) (unicodeEscape_visible read)
      · split at read
        · next meant means =>
          cases read
          exact .cons (shortEscape?_visible means) .nil
        · cases read
  · split at read
    · cases read
    · next visible =>
      cases read
      exact .cons (Char.not_lt.mp visible) .nil

/-- No escape hides a control character, so a text that can be decoded has none. -/
theorem decode_visible {raw : List Char} : ∀ text, decode raw = .ok text → ∀ c ∈ raw, ' ' ≤ c := by
  fun_induction decode raw with
  | case1 => exact fun _ _ => nofun
  | case2 first rest flaw read => simp
  | case3 first rest c behind read shorter ih =>
    intro text decoded
    cases inner : decode behind with
    | error flaw => simp [inner, Except.map] at decoded
    | ok others =>
      rcases decodeFirst_visible read with ⟨taken, whole, visible⟩
      rw [whole]
      exact List.forall_mem_append.mpr ⟨visible, ih others inner⟩

end Visible

end LispCompiler.Quoted
