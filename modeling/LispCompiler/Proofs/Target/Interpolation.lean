import LispCompiler.Proofs.Target.Literals

namespace LispCompiler.Ruby

def interpolates (behind : List Char) : Bool :=
  behind.head?.any fun c => c == '\x7b' || c == '$' || c == '@'

def codePoint? (digits : List Char) : Option Char := do
  let (code, _) ← Quoted.unit? digits
  if Quoted.isHighSurrogate code || Quoted.isLowSurrogate code then none else some (Char.ofNat code)

/-- The text that the inside of a double-quoted literal denotes. There is none where a quote ends the
literal early, an interpolation starts, or a backslash escapes nothing known. -/
def denoted? : List Char → Option (List Char)
  | [] => some []
  | first :: rest =>
    if first = '\\' then
      match rest with
      | [] => none
      | letter :: rest =>
        if letter = 'u' then
          match rest with
          | a :: b :: c :: d :: rest =>
            (codePoint? [a, b, c, d]).bind fun meant => (denoted? rest).map (meant :: ·)
          | _ => none
        else
          (escapes.lookup letter).bind fun meant => (denoted? rest).map (meant :: ·)
    else if first = '"' || first = '#' && interpolates rest then none
    else (denoted? rest).map (first :: ·)

section Written

variable {c : Char} {text rest : List Char}

theorem Written.hashes_escaped (written : Written c text) :
    Token.EscapedIn '#' (text ++ rest) ↔ Token.EscapedIn '#' rest := by
  cases written with
  | itself noQuote noBackslash noHash => exact Token.escapedIn_cons noHash noBackslash
  | short means => exact Token.escapedIn_pair (by decide)
  | unit small =>
    have high := Quoted.digitChar_ne_mark (show c.toNat / 16 < 16 by omega)
    have low := Quoted.digitChar_ne_mark (show c.toNat % 16 < 16 by omega)
    have highHash := digitChar_ne_hash (show c.toNat / 16 < 16 by omega)
    have lowHash := digitChar_ne_hash (show c.toNat % 16 < 16 by omega)
    have plain : ∀ d ∈ ['0', '0', Nat.digitChar (c.toNat / 16), Nat.digitChar (c.toNat % 16)],
        d ≠ '#' ∧ d ≠ '\\' := by
      simp [high, low, highHash, lowHash]
    exact (Token.escapedIn_pair (by decide)).trans (Token.escapedIn_plain plain)

theorem codePoint?_unit (small : c.toNat < 128) :
    codePoint? ['0', '0', Nat.digitChar (c.toNat / 16), Nat.digitChar (c.toNat % 16)] = some c := by
  have high := Quoted.hexValue?_digitChar (show c.toNat / 16 < 16 by omega)
  have low := Quoted.hexValue?_digitChar (show c.toNat % 16 < 16 by omega)
  have zero : Quoted.hexValue? '0' = some 0 := by decide
  have whole : c.toNat / 16 * 16 + c.toNat % 16 = c.toNat := by omega
  have noHigh : Quoted.isHighSurrogate c.toNat = false := by simp [Quoted.isHighSurrogate]; omega
  have noLow : Quoted.isLowSurrogate c.toNat = false := by simp [Quoted.isLowSurrogate]; omega
  simp [codePoint?, Quoted.unit?, high, low, zero, whole, noHigh, noLow]

theorem denoted?_written (written : Written c text) :
    denoted? (text ++ rest) = (denoted? rest).map (c :: ·) := by
  cases written with
  | itself noQuote noBackslash noHash =>
    rw [List.singleton_append, denoted?.eq_def]
    simp [noQuote, noBackslash, noHash]
  | @short letter means =>
    have noUnit : letter ≠ 'u' := by
      intro unit
      rw [unit] at means
      cases means
    rw [List.cons_append, List.singleton_append, denoted?.eq_def]
    simp [noUnit, means]
  | unit small => simp [denoted?, codePoint?_unit small]

end Written

theorem hashes_escaped_encode (text : List Char) :
    Token.EscapedIn '#' ((Quoted.encode text).flatMap escapeHash) := by
  induction text with
  | nil => exact Token.escapedIn_nil
  | cons c text ih =>
    rw [Quoted.encode_cons, List.flatMap_append]
    exact (written_escapeChar c).hashes_escaped.mpr ih

theorem denoted?_encode (text : List Char) :
    denoted? ((Quoted.encode text).flatMap escapeHash) = some text := by
  induction text with
  | nil => rfl
  | cons c text ih =>
    rw [Quoted.encode_cons, List.flatMap_append, denoted?_written (written_escapeChar c), ih,
      Option.map_some]

/-- Between its first and last character, each quote and each hash mark of a literal stands behind a
backslash that is not escaped itself. So the literal ends with its last character and interpolates
nothing, and it denotes the text. -/
theorem string_denotes (text : String) :
    ∃ body, (string text).toList = '"' :: (body ++ ['"']) ∧
      Token.EscapedIn '"' body ∧ Token.EscapedIn '#' body ∧ ¬Token.EscapesNext body ∧
      denoted? body = some text.toList := by
  have ends := endsAtQuote_encode text.toList
  exact ⟨Target.stringBody .ruby text, Target.toList_string .ruby text, ends.guarded,
    hashes_escaped_encode text.toList, ends.unescaped, denoted?_encode text.toList⟩

end LispCompiler.Ruby
