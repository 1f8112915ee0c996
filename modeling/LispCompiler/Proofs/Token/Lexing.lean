import LispCompiler.Proofs.Text.Quoting
import LispCompiler.Token.Lexer

namespace LispCompiler.Token

variable {position : Nat} {first : Char} {rest : List Char}

theorem lexFrom_nil : lexFrom position [] = [⟨.eof, position, ""⟩] := by
  rw [lexFrom]

theorem lexFrom_blank (blank : isBlank first) :
    lexFrom position (first :: rest) = lexFrom (position + first.utf8Size) rest := by
  rw [lexFrom, if_pos blank]

theorem lexFrom_piece {kind : Kind} {text behind : List Char} (visible : isBlank first = false)
    (piece : scan first rest = ⟨kind, text, behind⟩) :
    lexFrom position (first :: rest) =
      ⟨kind, position, String.ofList text⟩ :: lexFrom (position + byteLength text) behind := by
  rw [lexFrom, if_neg (by simp [visible]), piece]

theorem lexFrom_quoteMark : lexFrom position ('\'' :: rest) =
    ⟨.marker .quote, position, "'"⟩ :: lexFrom (position + 1) rest :=
  lexFrom_piece rfl rfl

theorem lexFrom_openParen : lexFrom position ('(' :: rest) =
    ⟨.opener .paren, position, "("⟩ :: lexFrom (position + 1) rest :=
  lexFrom_piece rfl rfl

theorem lexFrom_closeParen : lexFrom position (')' :: rest) =
    ⟨.closer .paren, position, ")"⟩ :: lexFrom (position + 1) rest :=
  lexFrom_piece rfl rfl

theorem scan_kind_ne_eof (first : Char) (rest : List Char) : (scan first rest).kind ≠ .eof := by
  unfold scan
  split <;> try simp
  · split <;> simp
  · split
    · split <;> simp
    · simp

theorem lexFrom_ends (position : Nat) (source : List Char) :
    ∃ body last, lexFrom position source = body ++ [last] ∧ last.kind = .eof ∧
      ∀ token ∈ body, token.kind ≠ .eof := by
  fun_induction lexFrom position source with
  | case1 position => exact ⟨[], _, rfl, rfl, by simp⟩
  | case2 position first rest blank ih => exact ih
  | case3 position first rest visible piece ih =>
    rcases ih with ⟨body, last, tokens, ends, others⟩
    refine ⟨_ :: body, last, by rw [tokens, List.cons_append], ends, ?_⟩
    exact List.forall_mem_cons.mpr ⟨scan_kind_ne_eof first rest, others⟩

def Separated (text : List Char) : Prop :=
  ∀ c ∈ text.head?, isWordChar c = false

/-- A text that is one word: a semicolon inside it belongs to it, one at its start does not. -/
structure IsWord (text : List Char) : Prop where
  nonempty : text ≠ []
  noComment : text.head? ≠ some ';'
  continued : ∀ c ∈ text, isWordChar c

theorem isWord_of_all {text : List Char} (nonempty : text ≠ []) (noComment : text.head? ≠ some ';')
    (continued : text.all isWordChar) : IsWord text :=
  ⟨nonempty, noComment, List.all_eq_true.mp continued⟩

theorem takeWhile_separated {text : List Char} (continued : ∀ c ∈ text, isWordChar c)
    (separated : Separated rest) : (text ++ rest).takeWhile isWordChar = text := by
  rw [List.takeWhile_append_of_pos continued]
  cases rest with
  | nil => simp
  | cons c rest => simp [separated c rfl]

theorem dropWhile_separated {text : List Char} (continued : ∀ c ∈ text, isWordChar c)
    (separated : Separated rest) : (text ++ rest).dropWhile isWordChar = rest := by
  rw [List.dropWhile_append_of_pos continued]
  cases rest with
  | nil => rfl
  | cons c rest => simp [separated c rfl]

theorem scan_word (noComment : first ≠ ';') (starts : isWordChar first) :
    scan first rest = ⟨.word, first :: rest.takeWhile isWordChar, rest.dropWhile isWordChar⟩ := by
  unfold scan
  split <;> first | rfl | simp_all [isWordChar, isStructural, isBlank]

theorem lexFrom_word {word : List Char} (isWord : IsWord word) (separated : Separated rest) :
    lexFrom position (word ++ rest) =
      ⟨.word, position, String.ofList word⟩ :: lexFrom (position + byteLength word) rest := by
  rcases isWord with ⟨nonempty, noComment, continued⟩
  cases word with
  | nil => exact absurd rfl nonempty
  | cons first word =>
    rcases List.forall_mem_cons.mp continued with ⟨starts, continued⟩
    have visible : isBlank first = false := by simp_all [isWordChar]
    have piece : scan first (word ++ rest) = _ := scan_word (by simpa using noComment) starts
    rw [takeWhile_separated continued separated, dropWhile_separated continued separated] at piece
    rw [List.cons_append, lexFrom_piece visible piece]

theorem splitQuoted_raw {c : Char} (noQuote : c ≠ '"') (noBackslash : c ≠ '\\') :
    splitQuoted (c :: rest) = (splitQuoted rest).map fun (body, rest) => (c :: body, rest) := by
  rw [splitQuoted]
  · exact noQuote
  · exact fun _ _ same => absurd same noBackslash

theorem splitQuoted_escaped {c : Char} {written : List Char} (escaped : Quoted.Escaped c written) :
    splitQuoted (written ++ rest) =
      (splitQuoted rest).map fun (body, rest) => (written ++ body, rest) := by
  cases escaped with
  | short means => rfl
  | unit small =>
    have high := Quoted.digitChar_ne_mark (show c.toNat / 16 < 16 by omega)
    have low := Quoted.digitChar_ne_mark (show c.toNat % 16 < 16 by omega)
    simp only [List.cons_append, List.nil_append, splitQuoted,
      splitQuoted_raw (show '0' ≠ '"' by decide) (show '0' ≠ '\\' by decide),
      splitQuoted_raw high.1 high.2, splitQuoted_raw low.1 low.2, Option.map_map]
    rfl
  | raw visible noQuote noBackslash => exact splitQuoted_raw noQuote noBackslash

/-- An encoded text ends at the quote behind it, since no quote in it stands unescaped. -/
theorem splitQuoted_encode (text rest : List Char) :
    splitQuoted (Quoted.encode text ++ '"' :: rest) = some (Quoted.encode text, rest) := by
  induction text with
  | nil => rfl
  | cons c text ih =>
    rw [Quoted.encode_cons, List.append_assoc, splitQuoted_escaped (Quoted.escapeChar_escaped c), ih]
    rfl

def ofQuoted (position : Nat) (text : String) : Token where
  kind := if (Quoted.encode text.toList).contains '\\' then .escapedString else .plainString
  start := position
  text := Quoted.quote text

theorem lexFrom_quote (text : String) :
    lexFrom position ((Quoted.quote text).toList ++ rest) =
      ofQuoted position text :: lexFrom (position + byteLength (Quoted.quote text).toList) rest := by
  have piece : scan '"' (Quoted.encode text.toList ++ '"' :: rest) =
      ⟨(ofQuoted position text).kind, (Quoted.quote text).toList, rest⟩ := by
    rw [Quoted.toList_quote]
    simp only [scan, splitQuoted_encode, ofQuoted]
  have whole : (Quoted.quote text).toList ++ rest =
      '"' :: (Quoted.encode text.toList ++ '"' :: rest) := by
    simp [Quoted.toList_quote]
  rw [whole, lexFrom_piece rfl piece, String.ofList_toList]
  rfl

end LispCompiler.Token
