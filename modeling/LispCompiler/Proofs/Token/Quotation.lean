import LispCompiler.Proofs.Datum.RoundTrip
import LispCompiler.Proofs.Text.Lines

namespace LispCompiler

theorem byteLength_toList (text : String) : byteLength text.toList = (Bytes.ofText text).length := by
  rw [Bytes.ofText_eq]
  induction text.toList with
  | nil => rfl
  | cons c text ih =>
    rw [byteLength, ih, List.flatMap_cons, List.length_append, String.length_utf8EncodeChar]

namespace Span

theorem exists_count (c : Char) (text : List Char) :
    ∃ count, byteLength (c :: text) = count + 1 ∧ count + 1 - c.utf8Size = byteLength text := by
  have positive := c.utf8Size_pos
  refine ⟨c.utf8Size - 1 + byteLength text, ?_, by omega⟩
  rw [byteLength]
  omega

theorem takeBytes_append (text rest : List Char) :
    takeBytes (byteLength text) (text ++ rest) = text := by
  induction text with
  | nil => cases rest <;> rfl
  | cons c text ih =>
    obtain ⟨count, whole, remaining⟩ := exists_count c text
    rw [whole, List.cons_append, takeBytes, remaining, ih]

theorem dropBytes_append (text rest : List Char) :
    dropBytes (byteLength text) (text ++ rest) = rest := by
  induction text with
  | nil => cases rest <;> rfl
  | cons c text ih =>
    obtain ⟨count, whole, remaining⟩ := exists_count c text
    rw [whole, List.cons_append, dropBytes, remaining, ih]

/-- A region as long as a text that stands in front covers that text. -/
theorem slice_front (text rest : String) :
    slice ⟨0, byteLength text.toList⟩ (text ++ rest) = text := by
  have whole : dropBytes 0 (text ++ rest).toList = text.toList ++ rest.toList := by
    rw [String.toList_append]
    cases text.toList ++ rest.toList <;> rfl
  rw [slice, whole, takeBytes_append, String.ofList_toList]

end Span

namespace Quoted

variable {c : Char} {text : List Char}

theorem escapeChar_cases (c : Char) :
    (escapeChar c = [c] ∧ '\\' ∉ escapeChar c) ∨ ∃ letter rest, escapeChar c = '\\' :: letter :: rest := by
  have escaped := escapeChar_escaped c
  generalize escapeChar c = written at escaped
  cases escaped with
  | short means => exact .inr ⟨_, _, rfl⟩
  | unit small => exact .inr ⟨_, _, rfl⟩
  | raw visible noQuote noBackslash => exact .inl ⟨rfl, by simpa using Ne.symm noBackslash⟩

theorem length_le_length_encode (text : List Char) : text.length ≤ (encode text).length := by
  induction text with
  | nil => exact Nat.zero_le _
  | cons c text ih =>
    rw [encode_cons, List.length_append, List.length_cons]
    rcases escapeChar_cases c with ⟨itself, -⟩ | ⟨letter, rest, escaped⟩
    · rw [itself, List.length_singleton]
      omega
    · rw [escaped, List.length_cons]
      omega

/-- Backslashes show whether anything was escaped: a text without them is unchanged, and one with
them has become longer. -/
theorem encode_eq_self_iff : encode text = text ↔ '\\' ∉ encode text := by
  induction text with
  | nil => exact iff_of_true rfl List.not_mem_nil
  | cons c text ih =>
    rw [encode_cons, List.mem_append, not_or]
    rcases escapeChar_cases c with ⟨itself, plain⟩ | ⟨letter, rest, escaped⟩
    · rw [← ih, itself, List.singleton_append, List.cons_inj_right]
      rw [itself] at plain
      exact (and_iff_right plain).symm
    · apply iff_of_false
      · intro same
        have longer := congrArg List.length same
        have least := length_le_length_encode text
        simp only [escaped, List.length_append, List.length_cons] at longer
        omega
      · intro plain
        exact plain.1 (by simp [escaped])

theorem quote_eq_self_iff (text : String) :
    quote text = "\"" ++ text ++ "\"" ↔ '\\' ∉ encode text.toList := by
  rw [← encode_eq_self_iff, ← String.toList_inj]
  simp [quote]

end Quoted

namespace Token

theorem kind_ofQuoted (position : Nat) (text : String) :
    (ofQuoted position text).kind =
      if Quoted.quote text = "\"" ++ text ++ "\"" then .plainString else .escapedString := by
  by_cases plain : '\\' ∈ Quoted.encode text.toList
  · have escaped := mt (Quoted.quote_eq_self_iff text).mp (not_not_intro plain)
    simp [ofQuoted, plain, escaped]
  · have unchanged := (Quoted.quote_eq_self_iff text).mpr plain
    simp [ofQuoted, plain, unchanged]

/-- A quoted text in front of any other is one token. It covers the bytes of the quoted text, tells by
its kind whether something was escaped, and denotes the text; the tokens behind it are those of the
other text. -/
theorem lex_quote_append (text behind : String) :
    ∃ token,
      lex (Quoted.quote text ++ behind) = token :: lexFrom token.span.hi behind.toList ∧
      token.span = ⟨0, (Bytes.ofText (Quoted.quote text)).length⟩ ∧
      token.span.slice (Quoted.quote text ++ behind) = Quoted.quote text ∧
      token.kind =
        (if Quoted.quote text = "\"" ++ text ++ "\"" then .plainString else .escapedString) ∧
      token.stringText = .ok text := by
  have lexed : lex (Quoted.quote text ++ behind) =
      ofQuoted 0 text :: lexFrom (ofQuoted 0 text).span.hi behind.toList := by
    rw [lex, String.toList_append]
    exact lexFrom_quote text
  have covered : (ofQuoted 0 text).span = ⟨0, byteLength (Quoted.quote text).toList⟩ := rfl
  refine ⟨ofQuoted 0 text, lexed, ?_, ?_, kind_ofQuoted 0 text, stringText_ofQuoted 0 text⟩
  · rw [covered, byteLength_toList]
  · rw [covered, Span.slice_front]

end Token

end LispCompiler
