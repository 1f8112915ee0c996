import LispCompiler.Proofs.Token.Tokenisation

namespace LispCompiler.Token

variable {kind : Kind} {text behind : List Char}

/-- A line break continues no lexeme but an unclosed string. -/
theorem Lexeme.before_lineBreak (lexeme : Lexeme kind text behind) (closed : kind ≠ .unclosedString)
    (more : List Char) : Lexeme kind text (behind ++ '\n' :: more) := by
  cases lexeme with
  | openParen => exact .openParen
  | closeParen => exact .closeParen
  | openBracket => exact .openBracket
  | closeBracket => exact .closeBracket
  | quote => exact .quote
  | quasiquote => exact .quasiquote
  | unquote alone =>
    refine .unquote ?_
    cases behind with
    | nil => simp
    | cons c behind => simpa using alone
  | spliceUnquote => exact .spliceUnquote
  | comment oneLine ends =>
    refine .comment oneLine ?_
    cases behind with
    | nil => simp
    | cons c behind => simpa using ends
  | plainString ends plain => exact .plainString ends plain
  | escapedString ends escapes => exact .escapedString ends escapes
  | unclosedString guarded => exact absurd rfl closed
  | word isWord separated =>
    refine .word isWord ?_
    cases behind with
    | nil =>
      intro c first
      obtain rfl : '\n' = c := by simpa using first
      rfl
    | cons c behind => simpa [Separated] using separated

inductive Broken : Token → Prop
  | unclosed {token : Token} (kind : token.kind = .unclosedString) : Broken token
  | lineBreak {token : Token} (quoted : token.kind = .plainString ∨ token.kind = .escapedString)
      (inside : '\n' ∈ token.inner) : Broken token

/-- The tokens of a text, and those of the text with a line break and `more` behind it. -/
inductive Joined (position : Nat) (text more : List Char) : Prop
  | closed {body : List Token} (all : ∀ token ∈ body, token.kind ≠ .unclosedString)
      (alone : lexFrom position text = body ++ [⟨.eof, position + byteLength text, ""⟩])
      (whole : lexFrom position (text ++ '\n' :: more) =
        body ++ lexFrom (position + byteLength text + 1) more)
  | unclosed {body behind : List Token} {last ends broken : Token}
      (kind : last.kind = .unclosedString)
      (alone : lexFrom position text = body ++ [last, ends])
      (whole : lexFrom position (text ++ '\n' :: more) = body ++ broken :: behind)
      (unreadable : Broken broken)

theorem splitQuoted_past_guarded {body inner more after : List Char} (guarded : Guarded body)
    (split : splitQuoted (body ++ '\n' :: more) = some (inner, after)) : '\n' ∈ inner := by
  rcases splitQuoted_eq_some_iff.mp split with ⟨whole, ends⟩
  rcases List.append_eq_append_iff.mp whole with ⟨rest, longer, remaining⟩ | ⟨rest, longer, remaining⟩
  · cases rest with
    | nil => simp at remaining
    | cons c rest =>
      simp only [List.cons_append, List.cons.injEq] at remaining
      simp [longer, ← remaining.1]
  · cases rest with
    | nil => simp at remaining
    | cons c rest =>
      simp only [List.cons_append, List.cons.injEq] at remaining
      rw [← remaining.1] at longer
      exact absurd (guarded inner rest longer) ends.unescaped

theorem lexFrom_lexeme (position : Nat) (lexeme : Lexeme kind text behind) :
    lexFrom position (text ++ behind) =
      ⟨kind, position, String.ofList text⟩ :: lexFrom (position + byteLength text) behind := by
  rcases scan_of_lexeme lexeme with ⟨first, rest, whole, visible, piece⟩
  rw [whole, lexFrom_piece visible piece]

/-- A string that the end of the text leaves unclosed cannot be mended behind a line break. -/
theorem exists_broken {position : Nat} {body more : List Char} (guarded : Guarded body) :
    ∃ broken behind, lexFrom position ('"' :: (body ++ '\n' :: more)) = broken :: behind ∧
      Broken broken := by
  cases split : splitQuoted (body ++ '\n' :: more) with
  | none =>
    have lexeme : Lexeme .unclosedString ('"' :: (body ++ '\n' :: more)) [] :=
      .unclosedString (splitQuoted_guarded split)
    have lexed : lexFrom position ('"' :: (body ++ '\n' :: more) ++ []) = _ := lexFrom_lexeme position lexeme
    rw [List.append_nil] at lexed
    exact ⟨_, _, lexed, .unclosed rfl⟩
  | some parts =>
    rcases parts with ⟨inner, after⟩
    have lineBreak : '\n' ∈ inner := splitQuoted_past_guarded guarded split
    rcases splitQuoted_eq_some_iff.mp split with ⟨whole, ends⟩
    have shape : '"' :: (body ++ '\n' :: more) = '"' :: (inner ++ ['"']) ++ after := by
      simp [whole]
    rw [shape]
    by_cases escapes : '\\' ∈ inner
    · refine ⟨_, _, lexFrom_lexeme position (.escapedString ends escapes), .lineBreak (.inr rfl) ?_⟩
      simpa [Token.inner] using lineBreak
    · refine ⟨_, _, lexFrom_lexeme position (.plainString ends escapes), .lineBreak (.inl rfl) ?_⟩
      simpa [Token.inner] using lineBreak

section Joining

variable {position : Nat} {more : List Char}

theorem joined_nil : Joined position [] more := by
  refine .closed (by simp : ∀ token ∈ [], _) ?_ ?_
  · rw [lexFrom_nil]
    rfl
  · rw [List.nil_append, lexFrom_blank (by decide)]
    rfl

theorem Joined.blank {first : Char} {rest : List Char} (blank : isBlank first)
    (joined : Joined (position + first.utf8Size) rest more) : Joined position (first :: rest) more := by
  have length : position + byteLength (first :: rest) = position + first.utf8Size + byteLength rest := by
    rw [byteLength, Nat.add_assoc]
  cases joined with
  | closed all alone whole =>
    refine .closed all ?_ ?_
    · rw [lexFrom_blank blank, alone, length]
    · rw [List.cons_append, lexFrom_blank blank, whole, length]
  | unclosed kind alone whole unreadable =>
    exact .unclosed kind ((lexFrom_blank blank).trans alone) ((lexFrom_blank blank).trans whole) unreadable

theorem Joined.lexeme (lexeme : Lexeme kind text behind) (closed : kind ≠ .unclosedString)
    (joined : Joined (position + byteLength text) behind more) :
    Joined position (text ++ behind) more := by
  have length : position + byteLength (text ++ behind) =
      position + byteLength text + byteLength behind := by
    rw [byteLength_append, Nat.add_assoc]
  have lexedAlone := lexFrom_lexeme position lexeme
  have lexedWhole := lexFrom_lexeme position (lexeme.before_lineBreak closed more)
  rw [← List.append_assoc] at lexedWhole
  cases joined with
  | @closed body all alone whole =>
    rw [alone, ← length] at lexedAlone
    rw [whole, ← length] at lexedWhole
    exact .closed (List.forall_mem_cons.mpr ⟨closed, all⟩) lexedAlone lexedWhole
  | unclosed kind alone whole unreadable =>
    rw [alone, ← List.cons_append] at lexedAlone
    rw [whole, ← List.cons_append] at lexedWhole
    exact .unclosed kind lexedAlone lexedWhole unreadable

theorem joined_unclosed {body : List Char} (guarded : Guarded body) :
    Joined position ('"' :: body) more := by
  have lexeme : Lexeme .unclosedString ('"' :: body) [] := .unclosedString guarded
  have alone : lexFrom position ('"' :: body ++ []) = _ := lexFrom_lexeme position lexeme
  rw [List.append_nil, lexFrom_nil] at alone
  rcases exists_broken guarded with ⟨broken, behind, whole, unreadable⟩
  exact @Joined.unclosed position _ more [] behind _ _ broken rfl alone whole unreadable

theorem Lexeme.of_unclosed (lexeme : Lexeme kind text behind) (unclosed : kind = .unclosedString) :
    ∃ body, Guarded body ∧ text = '"' :: body ∧ behind = [] := by
  cases lexeme with
  | unclosedString guarded => exact ⟨_, guarded, rfl, rfl⟩
  | _ => cases unclosed

theorem lexFrom_joined (position : Nat) (text more : List Char) : Joined position text more := by
  fun_induction lexFrom position text with
  | case1 position => exact joined_nil
  | case2 position first rest blank ih => exact ih.blank blank
  | case3 position first rest visible piece ih =>
    have lexeme : Lexeme piece.kind piece.text piece.rest := scan_lexeme (by simpa using visible) rest
    by_cases unclosed : piece.kind = .unclosedString
    · rcases lexeme.of_unclosed unclosed with ⟨body, guarded, text, behind⟩
      have split := scan_append first rest
      rw [text, behind, List.append_nil] at split
      rw [← split]
      exact joined_unclosed guarded
    · have joined := ih.lexeme lexeme unclosed
      rwa [scan_append] at joined

end Joining

end LispCompiler.Token
