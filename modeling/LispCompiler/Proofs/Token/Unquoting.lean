import LispCompiler.Proofs.Text.CodeUnits
import LispCompiler.Proofs.Token.Quotation

/-!
String tokens without their quotes. The lexer finds the closing quote by keeping track of backslashes,
and the decoder takes escapes apart again. Main statement: the region between the quotes lies within the
source, both kinds of string token denote what decoding that region gives, and decoding never comes to a
backslash with nothing behind it.
-/

namespace LispCompiler

namespace Span

def Selects (span : Span) (text inside : List Char) : Prop :=
  ∃ before behind, text = before ++ (inside ++ behind) ∧ span = ⟨byteLength before, byteLength inside⟩

variable {span : Span} {text inside : List Char}

theorem Selects.slice_eq {source : String} (selects : span.Selects source.toList inside) :
    span.slice source = String.ofList inside := by
  obtain ⟨before, behind, split, rfl⟩ := selects
  calc slice ⟨byteLength before, byteLength inside⟩ source
      = String.ofList (takeBytes (byteLength inside) (inside ++ behind)) := by
        rw [slice, split, dropBytes_append]
    _ = String.ofList inside := by rw [takeBytes_append]

theorem Selects.hi_le (selects : span.Selects text inside) : span.hi ≤ byteLength text := by
  obtain ⟨before, behind, rfl, rfl⟩ := selects
  rw [byteLength_append, byteLength_append, ← Nat.add_assoc]
  exact Nat.le_add_right _ _

theorem offset_inward (within : span.hi ≤ maxPosition) (quotes : 2 ≤ span.len) :
    span.offset 1 (-1) = ⟨span.lo + 1, span.len - 2⟩ := by
  rw [hi] at within
  have start : shift span.lo 1 = span.lo + 1 := by
    rw [shift]
    omega
  have stop : shift span.hi (-1) = span.lo + span.len - 1 := by
    rw [shift, hi]
    omega
  rw [offset, start, stop, between]
  congr 1
  omega

/-- What stands in quotes is what is selected with an end moved past each quote. -/
theorem Selects.offset (selects : span.Selects text ('"' :: (inside ++ ['"'])))
    (addressable : byteLength text ≤ maxPosition) : (span.offset 1 (-1)).Selects text inside := by
  have within := Nat.le_trans selects.hi_le addressable
  obtain ⟨before, behind, split, rfl⟩ := selects
  have quote : byteLength ['"'] = 1 := rfl
  have whole : byteLength ('"' :: (inside ++ ['"'])) = byteLength inside + 2 := by
    rw [← List.singleton_append, byteLength_append, byteLength_append, quote]
    omega
  rw [whole] at within ⊢
  refine ⟨before ++ ['"'], '"' :: behind, by simp [split], ?_⟩
  rw [offset_inward within (Nat.le_add_left _ _), byteLength_append, quote]
  rfl

end Span

namespace Quoted

variable {c first : Char} {raw rest text : List Char}

/-- Decoding a text comes to the other one: it is what is left behind some characters that were read. -/
inductive Reaches : List Char → List Char → Prop
  | here {text : List Char} : Reaches text text
  | onward {first c : Char} {rest behind text : List Char} (read : decodeFirst first rest = .ok (c, behind))
      (reaches : Reaches behind text) : Reaches (first :: rest) text

theorem unicodeEscape_ne_invalidEscape : unicodeEscape text ≠ .error (.invalidEscape c) := by
  intro failed
  unfold unicodeEscape at failed
  repeat' split at failed
  all_goals cases failed

/-- Of all that a text can start with, only a backslash at its very end is refused in this way. -/
theorem decodeFirst_dangling_iff :
    decodeFirst first rest = .error (.invalidEscape '"') ↔ first = '\\' ∧ rest = [] := by
  constructor
  · intro failed
    by_cases backslash : first = '\\'
    · subst backslash
      rw [decodeFirst_backslash] at failed
      cases rest with
      | nil => exact ⟨rfl, rfl⟩
      | cons letter rest =>
        by_cases unit : letter = 'u'
        · rw [escape, if_pos (by simp [unit])] at failed
          exact absurd failed unicodeEscape_ne_invalidEscape
        · rw [escape, if_neg (by simp [unit])] at failed
          cases means : shortEscape? letter with
          | some meant => simp [means] at failed
          | none =>
            rw [means] at failed
            cases failed
            cases means
    · rw [decodeFirst, if_neg (by simpa using backslash)] at failed
      split at failed <;> cases failed
  · intro ends
    rw [ends.1, ends.2]
    rfl

theorem decode_dangling_iff : decode raw = .error (.invalidEscape '"') ↔ Reaches raw ['\\'] := by
  constructor
  · intro failed
    fun_induction decode raw with
    | case1 => cases failed
    | case2 first rest flaw read =>
      cases failed
      obtain ⟨rfl, rfl⟩ := decodeFirst_dangling_iff.mp read
      exact .here
    | case3 first rest c behind read shorter ih =>
      cases inner : decode behind with
      | ok text => simp [inner, Except.map] at failed
      | error flaw =>
        rw [inner] at failed
        cases failed
        exact .onward read (ih inner)
  · intro reaches
    generalize last : ['\\'] = text at reaches
    induction reaches with
    | here =>
      subst last
      exact decode_cons_error (decodeFirst_dangling_iff.mpr ⟨rfl, rfl⟩)
    | onward read _ ih =>
      rw [decode_cons read, ih last]
      rfl

/-- Wherever decoding comes to, the text that is left ends at the quote that the lexer found. -/
theorem Reaches.endsAtQuote (reaches : Reaches raw text) (ends : Token.EndsAtQuote raw) :
    Token.EndsAtQuote text := by
  induction reaches with
  | here => exact ends
  | @onward first c rest behind text read _ ih =>
    have noQuote : first ≠ '"' := by
      intro quote
      subst quote
      exact Token.not_escapesNext_nil (ends.guarded [] rest rfl)
    obtain ⟨taken, whole, written⟩ := decodeFirst_eq_ok noQuote read
    rw [whole] at ends
    exact ih (written.endsAtQuote.mp ends)

theorem not_reaches_dangling (ends : Token.EndsAtQuote raw) : ¬Reaches raw ['\\'] := by
  intro reaches
  exact (reaches.endsAtQuote ends).unescaped rfl

end Quoted

namespace Token

variable {token : Token} {source : String}

theorem StandsBefore.selects {text behind : List Char} (stands : token.StandsBefore 0 text behind) :
    token.span.Selects text token.text.toList := by
  obtain ⟨before, split, start⟩ := stands
  refine ⟨before, behind, split, ?_⟩
  rw [span, start, Nat.zero_add]

/-- A string token stands in its source with both quotes, and where positions can count all bytes of the
source, moving the ends of its span inward cuts out just the text between them. What the token denotes
is what decoding that text gives, whether or not the token is marked as having escapes. Decoding never
comes to a backslash at the end of the text, so it never reports one. -/
theorem stringText_unquoted (member : token ∈ lex source)
    (quoted : token.kind = .plainString ∨ token.kind = .escapedString) :
    token.span.Selects source.toList ('"' :: (token.inner ++ ['"'])) ∧
      (byteLength source.toList ≤ Span.maxPosition →
        (token.span.offset 1 (-1)).Selects source.toList token.inner ∧
          (token.span.offset 1 (-1)).slice source = String.ofList token.inner) ∧
      token.stringText = (Quoted.decode token.inner).map String.ofList ∧
      ¬Quoted.Reaches token.inner ['\\'] ∧ token.stringText ≠ .error (.invalidEscape '"') := by
  obtain ⟨behind, stands, whole, ends, plain⟩ := exists_quoted_of_mem_lex member quoted
  have selects := stands.selects
  rw [whole] at selects
  have decoded := stringText_eq_decode token plain
  have unreachable := Quoted.not_reaches_dangling ends
  refine ⟨selects, ?_, decoded, unreachable, ?_⟩
  · intro addressable
    have inward := selects.offset addressable
    exact ⟨inward, inward.slice_eq⟩
  · intro failed
    apply unreachable
    rw [← Quoted.decode_dangling_iff]
    rw [decoded] at failed
    cases inner : Quoted.decode token.inner with
    | ok text => simp [inner, Except.map] at failed
    | error flaw => simpa [inner, Except.map] using failed

/-- A character of two bytes, an escape that means nothing, and an escaped backslash before the quote. -/
def flawedLiteral : Token :=
  ⟨.escapedString, 1, "\"é\\q\\\\\""⟩

theorem stringText_unquoted_flawedLiteral :
    let source := "(" ++ flawedLiteral.text
    flawedLiteral ∈ lex source ∧ (flawedLiteral.span.offset 1 (-1)).slice source = "é\\q\\\\" ∧
      flawedLiteral.stringText = .error (.invalidEscape 'q') := by
  intro source
  have opener : lex source = ⟨.opener .paren, 0, "("⟩ :: lexFrom 1 flawedLiteral.text.toList := by
    rw [lex, String.toList_append]
    exact lexFrom_openParen
  have piece : scan '"' (flawedLiteral.text.toList.drop 1) =
      ⟨.escapedString, flawedLiteral.text.toList, []⟩ := rfl
  have literal : lexFrom 1 flawedLiteral.text.toList = flawedLiteral :: _ := lexFrom_piece rfl piece
  have member : flawedLiteral ∈ lex source := by
    rw [opener, literal]
    exact List.mem_cons_of_mem _ List.mem_cons_self
  have letter : Quoted.decodeFirst 'é' ['\\', 'q', '\\', '\\'] = .ok ('é', ['\\', 'q', '\\', '\\']) := rfl
  have flaw : Quoted.decodeFirst '\\' ['q', '\\', '\\'] = .error (.invalidEscape 'q') := rfl
  have decoded : Quoted.decode flawedLiteral.inner = .error (.invalidEscape 'q') := by
    have read : Quoted.decode flawedLiteral.inner = _ := Quoted.decode_cons letter
    rw [read, Quoted.decode_cons_error flaw]
    rfl
  have unquoted := stringText_unquoted member (.inr rfl)
  refine ⟨member, (unquoted.2.1 (by decide)).2.trans rfl, ?_⟩
  rw [unquoted.2.2.1, decoded]
  rfl

end Token

end LispCompiler
