import LispCompiler.Proofs.Token.Lexing

/-!
Lexemes by their texts: what a token of each kind looks like, given the text behind it. Main
statement: the piece that is split off a text is the one lexeme that the text starts with.
-/

namespace LispCompiler.Token

def trailingBackslashes (text : List Char) : Nat :=
  (text.reverse.takeWhile (· == '\\')).length

/-- What follows the text is escaped: the backslashes before it do not escape each other in pairs. -/
def EscapesNext (text : List Char) : Prop :=
  trailingBackslashes text % 2 = 1

def EscapedIn (mark : Char) (text : List Char) : Prop :=
  ∀ before after, text = before ++ mark :: after → EscapesNext before

def Guarded (text : List Char) : Prop :=
  EscapedIn '"' text

structure EndsAtQuote (text : List Char) : Prop where
  guarded : Guarded text
  unescaped : ¬EscapesNext text

/-- The text of a token of this kind, and what may stand behind it. -/
inductive Lexeme : Kind → (text behind : List Char) → Prop
  | openParen {behind : List Char} : Lexeme (.opener .paren) ['('] behind
  | closeParen {behind : List Char} : Lexeme (.closer .paren) [')'] behind
  | openBracket {behind : List Char} : Lexeme (.opener .bracket) ['['] behind
  | closeBracket {behind : List Char} : Lexeme (.closer .bracket) [']'] behind
  | quote {behind : List Char} : Lexeme (.marker .quote) ['\''] behind
  | quasiquote {behind : List Char} : Lexeme (.marker .quasiquote) ['\x60'] behind
  | unquote {behind : List Char} (alone : behind.head? ≠ some '@') :
      Lexeme (.marker .unquote) [','] behind
  | spliceUnquote {behind : List Char} : Lexeme (.marker .spliceUnquote) [',', '@'] behind
  | comment {line behind : List Char} (oneLine : '\n' ∉ line) (ends : ∀ c ∈ behind.head?, c = '\n') :
      Lexeme .comment (';' :: line) behind
  | plainString {body behind : List Char} (ends : EndsAtQuote body) (plain : '\\' ∉ body) :
      Lexeme .plainString ('"' :: (body ++ ['"'])) behind
  | escapedString {body behind : List Char} (ends : EndsAtQuote body) (escapes : '\\' ∈ body) :
      Lexeme .escapedString ('"' :: (body ++ ['"'])) behind
  | unclosedString {body : List Char} (guarded : Guarded body) : Lexeme .unclosedString ('"' :: body) []
  | word {text behind : List Char} (isWord : IsWord text) (separated : Separated behind) :
      Lexeme .word text behind

theorem Lexeme.exists_body {kind : Kind} {text behind : List Char} (lexeme : Lexeme kind text behind)
    (quoted : kind = .plainString ∨ kind = .escapedString) :
    ∃ body, text = '"' :: (body ++ ['"']) ∧ EndsAtQuote body ∧ (kind = .plainString → '\\' ∉ body) := by
  cases lexeme with
  | @plainString body _ ends plain => exact ⟨body, rfl, ends, fun _ => plain⟩
  | @escapedString body _ ends _ => exact ⟨body, rfl, ends, by simp⟩
  | _ => simp at quoted

section Escapes

variable {c : Char} {text body rest : List Char}

theorem not_escapesNext_nil : ¬EscapesNext [] := by
  simp [EscapesNext, trailingBackslashes]

theorem escapesNext_cons (other : c ≠ '\\') : EscapesNext (c :: text) ↔ EscapesNext text := by
  have same : trailingBackslashes (c :: text) = trailingBackslashes text := by
    simp only [trailingBackslashes, List.reverse_cons, List.takeWhile_append]
    split
    · next whole => simp [other, whole]
    · rfl
  rw [EscapesNext, EscapesNext, same]

/-- A backslash at the start and the character that it escapes change nothing: either that character
breaks the run of backslashes, or both belong to it. -/
theorem escapesNext_pair : EscapesNext ('\\' :: c :: text) ↔ EscapesNext text := by
  have parity : trailingBackslashes ('\\' :: c :: text) % 2 = trailingBackslashes text % 2 := by
    simp only [trailingBackslashes, List.reverse_cons, List.append_assoc, List.takeWhile_append]
    split
    · next whole =>
      by_cases backslash : c = '\\'
      · simp [backslash, whole]
      · simp [backslash, whole]
    · rfl
  rw [EscapesNext, EscapesNext, parity]

section Marks

variable {mark : Char}

theorem escapedIn_nil : EscapedIn mark [] := by
  intro before after split
  simp at split

theorem escapedIn_cons (unmarked : c ≠ mark) (noBackslash : c ≠ '\\') :
    EscapedIn mark (c :: text) ↔ EscapedIn mark text := by
  constructor
  · intro escaped before after split
    exact (escapesNext_cons noBackslash).mp (escaped (c :: before) after (by simp [split]))
  · intro escaped before after split
    cases before with
    | nil => exact absurd (List.cons.inj split).1 unmarked
    | cons d before =>
      simp only [List.cons_append, List.cons.injEq] at split
      rcases split with ⟨rfl, split⟩
      exact (escapesNext_cons noBackslash).mpr (escaped before after split)

theorem escapedIn_pair (noBackslash : mark ≠ '\\') :
    EscapedIn mark ('\\' :: c :: text) ↔ EscapedIn mark text := by
  constructor
  · intro escaped before after split
    exact escapesNext_pair.mp (escaped ('\\' :: c :: before) after (by simp [split]))
  · intro escaped before after split
    match before with
    | [] => exact absurd (List.cons.inj split).1.symm noBackslash
    | [d] =>
      simp only [List.cons_append, List.nil_append, List.cons.injEq] at split
      rw [← split.1]
      rfl
    | d :: e :: before =>
      simp only [List.cons_append, List.cons.injEq] at split
      rcases split with ⟨rfl, rfl, split⟩
      exact escapesNext_pair.mpr (escaped before after split)

theorem escapedIn_plain {front : List Char} (plain : ∀ c ∈ front, c ≠ mark ∧ c ≠ '\\') :
    EscapedIn mark (front ++ text) ↔ EscapedIn mark text := by
  induction front with
  | nil => exact Iff.rfl
  | cons c front ih =>
    rcases List.forall_mem_cons.mp plain with ⟨first, others⟩
    exact (escapedIn_cons first.1 first.2).trans (ih others)

end Marks

theorem guarded_nil : Guarded [] :=
  escapedIn_nil

theorem guarded_cons (noQuote : c ≠ '"') (noBackslash : c ≠ '\\') :
    Guarded (c :: text) ↔ Guarded text :=
  escapedIn_cons noQuote noBackslash

theorem guarded_pair : Guarded ('\\' :: c :: text) ↔ Guarded text :=
  escapedIn_pair (by decide)

theorem endsAtQuote_nil : EndsAtQuote [] :=
  ⟨guarded_nil, not_escapesNext_nil⟩

theorem endsAtQuote_cons (noQuote : c ≠ '"') (noBackslash : c ≠ '\\') :
    EndsAtQuote (c :: text) ↔ EndsAtQuote text := by
  constructor
  · rintro ⟨guarded, unescaped⟩
    exact ⟨(guarded_cons noQuote noBackslash).mp guarded,
      fun escaped => unescaped ((escapesNext_cons noBackslash).mpr escaped)⟩
  · rintro ⟨guarded, unescaped⟩
    exact ⟨(guarded_cons noQuote noBackslash).mpr guarded,
      fun escaped => unescaped ((escapesNext_cons noBackslash).mp escaped)⟩

theorem endsAtQuote_pair : EndsAtQuote ('\\' :: c :: text) ↔ EndsAtQuote text := by
  constructor
  · rintro ⟨guarded, unescaped⟩
    exact ⟨guarded_pair.mp guarded, fun escaped => unescaped (escapesNext_pair.mpr escaped)⟩
  · rintro ⟨guarded, unescaped⟩
    exact ⟨guarded_pair.mpr guarded, fun escaped => unescaped (escapesNext_pair.mp escaped)⟩

theorem endsAtQuote_plain {front : List Char} (plain : ∀ c ∈ front, c ≠ '"' ∧ c ≠ '\\') :
    EndsAtQuote (front ++ text) ↔ EndsAtQuote text := by
  induction front with
  | nil => exact Iff.rfl
  | cons c front ih =>
    rcases List.forall_mem_cons.mp plain with ⟨first, others⟩
    exact (endsAtQuote_cons first.1 first.2).trans (ih others)

/-- Where two texts both end at the first unescaped quote, neither is longer than the other. -/
theorem EndsAtQuote.unique {other behind : List Char} (ends : EndsAtQuote body)
    (otherEnds : EndsAtQuote other) (same : body ++ '"' :: rest = other ++ '"' :: behind) :
    body = other ∧ rest = behind := by
  rcases List.append_eq_append_iff.mp same with ⟨more, longer, split⟩ | ⟨more, longer, split⟩
  · cases more with
    | nil => simp_all
    | cons c more =>
      simp only [List.cons_append, List.cons.injEq] at split
      rw [← split.1] at longer
      exact absurd (otherEnds.guarded body more longer) ends.unescaped
  · cases more with
    | nil => simp_all
    | cons c more =>
      simp only [List.cons_append, List.cons.injEq] at split
      rw [← split.1] at longer
      exact absurd (ends.guarded other more longer) otherEnds.unescaped

theorem splitQuoted_endsAtQuote (split : splitQuoted text = some (body, rest)) : EndsAtQuote body := by
  fun_induction splitQuoted text generalizing body rest with
  | case1 => cases split
  | case2 behind =>
    cases split
    exact endsAtQuote_nil
  | case3 c behind ih =>
    obtain ⟨⟨inner, after⟩, found, same⟩ := Option.map_eq_some_iff.mp split
    cases same
    exact endsAtQuote_pair.mpr (ih found)
  | case4 c behind noQuote noEscape ih =>
    obtain ⟨⟨inner, after⟩, found, same⟩ := Option.map_eq_some_iff.mp split
    cases same
    have noBackslash : c ≠ '\\' := by
      rintro rfl
      cases behind with
      | nil => cases found
      | cons d behind => exact noEscape d behind rfl rfl
    exact (endsAtQuote_cons noQuote noBackslash).mpr (ih found)

theorem splitQuoted_guarded (unclosed : splitQuoted text = none) : Guarded text := by
  fun_induction splitQuoted text with
  | case1 => exact guarded_nil
  | case2 behind => cases unclosed
  | case3 c behind ih => exact guarded_pair.mpr (ih (Option.map_eq_none_iff.mp unclosed))
  | case4 c behind noQuote noEscape ih =>
    by_cases backslash : c = '\\'
    · subst backslash
      cases behind with
      | nil =>
        intro before after split
        cases before <;> simp at split
      | cons d behind => exact absurd rfl (noEscape d behind rfl)
    · exact (guarded_cons noQuote backslash).mpr (ih (Option.map_eq_none_iff.mp unclosed))

theorem splitQuoted_eq_some_iff :
    splitQuoted text = some (body, rest) ↔ text = body ++ '"' :: rest ∧ EndsAtQuote body := by
  constructor
  · intro split
    exact ⟨splitQuoted_append split, splitQuoted_endsAtQuote split⟩
  · rintro ⟨rfl, ends⟩
    cases found : splitQuoted (body ++ '"' :: rest) with
    | none => exact absurd (splitQuoted_guarded found body rest rfl) ends.unescaped
    | some parts =>
      have same := ends.unique (splitQuoted_endsAtQuote found) (splitQuoted_append found)
      rw [same.1, same.2]

theorem splitQuoted_eq_none_iff : splitQuoted text = none ↔ Guarded text := by
  constructor
  · exact splitQuoted_guarded
  · intro guarded
    cases found : splitQuoted text with
    | none => rfl
    | some parts =>
      have escaped := guarded parts.1 parts.2 (splitQuoted_append found)
      exact absurd escaped (splitQuoted_endsAtQuote found).unescaped

end Escapes

section Scanning

variable {kind : Kind} {text behind : List Char}

theorem dropWhile_head {p : Char → Bool} {c : Char} {rest : List Char}
    (first : c ∈ (rest.dropWhile p).head?) : p c = false := by
  have stops := List.head?_dropWhile_not p rest
  rw [Option.mem_def.mp first] at stops
  exact stops

/-- What is split off a text that starts with no blank is a lexeme. -/
theorem scan_lexeme {first : Char} (visible : isBlank first = false) (rest : List Char) :
    Lexeme (scan first rest).kind (scan first rest).text (scan first rest).rest := by
  unfold scan
  split
  · exact .openParen
  · exact .closeParen
  · exact .openBracket
  · exact .closeBracket
  · exact .quote
  · exact .quasiquote
  · split
    · exact .spliceUnquote
    · next other => exact .unquote (by cases rest <;> simp_all)
  · refine .comment ?_ ?_
    · intro member
      have other := List.all_eq_true.mp List.all_takeWhile '\n' member
      simp at other
    · intro c first
      simpa using dropWhile_head first
  · split
    · next body behind split =>
      have ends := splitQuoted_endsAtQuote split
      by_cases escapes : '\\' ∈ body
      · simpa [escapes] using Lexeme.escapedString ends escapes
      · simpa [escapes] using Lexeme.plainString ends escapes
    · next unclosed => exact .unclosedString (splitQuoted_guarded unclosed)
  · have starts : isWordChar first := by simp_all [isWordChar, isStructural]
    refine .word ⟨by simp, by simp_all, ?_⟩ ?_
    · exact List.forall_mem_cons.mpr ⟨starts, List.all_eq_true.mp List.all_takeWhile⟩
    · intro c next
      exact dropWhile_head next

theorem takeWhile_line {line : List Char} (oneLine : '\n' ∉ line) (ends : ∀ c ∈ behind.head?, c = '\n') :
    (line ++ behind).takeWhile (· != '\n') = line ∧
      (line ++ behind).dropWhile (· != '\n') = behind := by
  have inside : ∀ c ∈ line, (c != '\n') = true := by
    intro c member
    simp only [bne_iff_ne]
    rintro rfl
    exact oneLine member
  rw [List.takeWhile_append_of_pos inside, List.dropWhile_append_of_pos inside]
  cases behind with
  | nil => simp
  | cons c behind => simp [ends c rfl]

/-- A lexeme is what is split off any text that starts with it. -/
theorem scan_of_lexeme (lexeme : Lexeme kind text behind) :
    ∃ first rest, text ++ behind = first :: rest ∧ isBlank first = false ∧
      scan first rest = ⟨kind, text, behind⟩ := by
  cases lexeme with
  | openParen | closeParen | openBracket | closeBracket | quote | quasiquote | spliceUnquote =>
    exact ⟨_, _, rfl, rfl, rfl⟩
  | unquote alone =>
    refine ⟨_, _, rfl, rfl, ?_⟩
    unfold scan
    cases behind with
    | nil => rfl
    | cons c behind =>
      have other : c ≠ '@' := by simpa using alone
      simp [other]
  | @comment line _ oneLine ends =>
    refine ⟨';', line ++ behind, rfl, rfl, ?_⟩
    have whole := takeWhile_line oneLine ends
    simp only [scan, whole.1, whole.2]
  | @plainString body _ ends plain =>
    refine ⟨'"', body ++ '"' :: behind, by simp, rfl, ?_⟩
    have split : splitQuoted (body ++ '"' :: behind) = some (body, behind) :=
      splitQuoted_eq_some_iff.mpr ⟨rfl, ends⟩
    simp [scan, split, plain]
  | @escapedString body _ ends escapes =>
    refine ⟨'"', body ++ '"' :: behind, by simp, rfl, ?_⟩
    have split : splitQuoted (body ++ '"' :: behind) = some (body, behind) :=
      splitQuoted_eq_some_iff.mpr ⟨rfl, ends⟩
    simp [scan, split, escapes]
  | @unclosedString body guarded =>
    refine ⟨'"', body, by simp, rfl, ?_⟩
    have unclosed := splitQuoted_eq_none_iff.mpr guarded
    simp [scan, unclosed]
  | word isWord separated =>
    rcases isWord with ⟨nonempty, noComment, continued⟩
    cases text with
    | nil => exact absurd rfl nonempty
    | cons first text =>
      rcases List.forall_mem_cons.mp continued with ⟨starts, continued⟩
      refine ⟨first, text ++ behind, rfl, by simp_all [isWordChar], ?_⟩
      rw [scan_word (by simpa using noComment) starts, takeWhile_separated continued separated,
        dropWhile_separated continued separated]

end Scanning

end LispCompiler.Token
