/-!
Text between double quotes. `quote` writes a text so that it stays on one line, `decode` reads the
inside of a written text back. Escapes above the basic plane come as surrogate pairs.
-/

namespace LispCompiler.Quoted

/-- Control characters other than those with a short escape are written with four hex digits. -/
def escapeChar (c : Char) : List Char :=
  match c with
  | '"' => ['\\', '"']
  | '\\' => ['\\', '\\']
  | '\n' => ['\\', 'n']
  | '\r' => ['\\', 'r']
  | '\t' => ['\\', 't']
  | '\x08' => ['\\', 'b']
  | '\x0c' => ['\\', 'f']
  | c =>
    if c < ' ' || c == '\x7f' then
      ['\\', 'u', '0', '0', Nat.digitChar (c.toNat / 16), Nat.digitChar (c.toNat % 16)]
    else
      [c]

def encode (text : List Char) : List Char :=
  text.flatMap escapeChar

def quote (text : String) : String :=
  String.ofList ('"' :: (encode text.toList ++ ['"']))

inductive Flaw where
  | invalidEscape (c : Char)
  | invalidUnicodeEscape
  | loneSurrogate
  | controlCharacter
  deriving DecidableEq, Repr

def Flaw.message : Flaw → String
  | invalidEscape c => "invalid escape sequence \\" ++ String.singleton c
  | invalidUnicodeEscape => "invalid unicode escape sequence"
  | loneSurrogate => "unpaired surrogate in unicode escape"
  | controlCharacter => "unescaped control character"

def hexValue? (c : Char) : Option Nat :=
  if '0' ≤ c ∧ c ≤ '9' then some (c.toNat - '0'.toNat)
  else if 'a' ≤ c ∧ c ≤ 'f' then some (c.toNat - 'a'.toNat + 10)
  else if 'A' ≤ c ∧ c ≤ 'F' then some (c.toNat - 'A'.toNat + 10)
  else none

def unit? : List Char → Option (Nat × List Char)
  | a :: b :: c :: d :: rest => do
    let a ← hexValue? a
    let b ← hexValue? b
    let c ← hexValue? c
    let d ← hexValue? d
    some (((a * 16 + b) * 16 + c) * 16 + d, rest)
  | _ => none

def isHighSurrogate (unit : Nat) : Bool :=
  0xd800 ≤ unit && unit < 0xdc00

def isLowSurrogate (unit : Nat) : Bool :=
  0xdc00 ≤ unit && unit < 0xe000

def joinSurrogates (high low : Nat) : Char :=
  Char.ofNat (0x10000 + (high - 0xd800) * 0x400 + (low - 0xdc00))

/-- The character that the text behind an escaping `u` starts with. -/
def unicodeEscape (text : List Char) : Except Flaw (Char × List Char) :=
  match unit? text with
  | none => .error .invalidUnicodeEscape
  | some (first, rest) =>
    if isHighSurrogate first then
      match rest with
      | '\\' :: 'u' :: rest =>
        match unit? rest with
        | none => .error .invalidUnicodeEscape
        | some (second, rest) =>
          if isLowSurrogate second then .ok (joinSurrogates first second, rest)
          else .error .loneSurrogate
      | _ => .error .loneSurrogate
    else if isLowSurrogate first then .error .loneSurrogate
    else .ok (Char.ofNat first, rest)

def shortEscape? : Char → Option Char
  | '"' => some '"'
  | '\\' => some '\\'
  | '/' => some '/'
  | 'b' => some '\x08'
  | 'f' => some '\x0c'
  | 'n' => some '\n'
  | 'r' => some '\r'
  | 't' => some '\t'
  | _ => none

def escape : List Char → Except Flaw (Char × List Char)
  | [] => .error (.invalidEscape '"')
  | c :: rest =>
    if c == 'u' then unicodeEscape rest
    else
      match shortEscape? c with
      | some meant => .ok (meant, rest)
      | none => .error (.invalidEscape c)

def decodeFirst (first : Char) (rest : List Char) : Except Flaw (Char × List Char) :=
  if first == '\\' then escape rest
  else if first < ' ' then .error .controlCharacter
  else .ok (first, rest)

theorem unit?_length {text rest : List Char} {unit : Nat} (read : unit? text = some (unit, rest)) :
    rest.length < text.length := by
  unfold unit? at read
  split at read
  · simp only [Option.bind_eq_bind, Option.bind_eq_some_iff, Option.some.injEq, Prod.mk.injEq] at read
    obtain ⟨_, _, _, _, _, _, _, _, _, rfl⟩ := read
    simp only [List.length_cons]
    omega
  · simp at read

theorem unicodeEscape_length {text rest : List Char} {c : Char}
    (read : unicodeEscape text = .ok (c, rest)) : rest.length < text.length := by
  unfold unicodeEscape at read
  split at read
  · simp at read
  · next first behind found =>
    have shorter := unit?_length found
    split at read
    · split at read
      · split at read
        · simp at read
        · next second after low =>
          have shorterStill := unit?_length low
          simp only [List.length_cons] at shorter
          split at read
          · simp only [Except.ok.injEq, Prod.mk.injEq] at read
            obtain ⟨-, rfl⟩ := read
            omega
          · simp at read
      · simp at read
    · split at read
      · simp at read
      · simp only [Except.ok.injEq, Prod.mk.injEq] at read
        obtain ⟨-, rfl⟩ := read
        exact shorter

theorem escape_length {text rest : List Char} {c : Char}
    (read : escape text = .ok (c, rest)) : rest.length < text.length := by
  unfold escape at read
  split at read
  · simp at read
  · split at read
    · exact Nat.lt_succ_of_lt (unicodeEscape_length read)
    · split at read
      · simp only [Except.ok.injEq, Prod.mk.injEq] at read
        simp [read]
      · simp at read

theorem decodeFirst_length {first c : Char} {text rest : List Char}
    (read : decodeFirst first text = .ok (c, rest)) : rest.length ≤ text.length := by
  unfold decodeFirst at read
  split at read
  · exact Nat.le_of_lt (escape_length read)
  · split at read
    · simp at read
    · simp only [Except.ok.injEq, Prod.mk.injEq] at read
      simp [read]

def decode (raw : List Char) : Except Flaw (List Char) :=
  match raw with
  | [] => .ok []
  | first :: rest =>
    match read : decodeFirst first rest with
    | .error flaw => .error flaw
    | .ok (c, behind) =>
      have := decodeFirst_length read
      (decode behind).map (c :: ·)
termination_by raw.length
decreasing_by
  simp only [List.length_cons]
  omega

/-- What `decode` does where no backslash occurs: only control characters are refused. -/
def decodePlain (raw : List Char) : Except Flaw (List Char) :=
  if raw.any (· < ' ') then .error .controlCharacter else .ok raw

end LispCompiler.Quoted
