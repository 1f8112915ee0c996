import Mathlib
import LispCompiler.Proofs.Datum.Continuation
import LispCompiler.Proofs.Datum.Height

namespace LispCompiler

def Span.moved (bytes : Nat) (span : Span) : Span :=
  { span with lo := span.lo + bytes }

def Token.moved (bytes : Nat) (token : Token) : Token :=
  { token with start := token.start + bytes }

def Token.placed (place : Token → Nat) (token : Token) : Token :=
  { token with start := place token }

def ReadError.moved (bytes : Nat) (error : ReadError) : ReadError :=
  { error with span := error.span.moved bytes }

namespace Token

variable {bytes : Nat} {token : Token}

theorem stringText_moved : (token.moved bytes).stringText = token.stringText :=
  rfl

theorem lexFrom_moved (bytes position : Nat) (text : List Char) :
    lexFrom (position + bytes) text = (lexFrom position text).map (moved bytes) := by
  fun_induction lexFrom position text with
  | case1 position =>
    rw [lexFrom_nil]
    rfl
  | case2 position first rest blank ih =>
    rw [lexFrom_blank blank, Nat.add_right_comm]
    exact ih
  | case3 position first rest visible piece ih =>
    have lexed : lexFrom (position + bytes) (first :: rest) =
        ⟨piece.kind, position + bytes, String.ofList piece.text⟩ ::
          lexFrom (position + bytes + byteLength piece.text) piece.rest :=
      lexFrom_piece (by simpa using visible) rfl
    rw [lexed, Nat.add_right_comm, ih]
    rfl

end Token

open Token

namespace Grammar

variable {bytes : Nat} {place : Token → Nat}

theorem atom_placed {token : Token} {datum : Datum} (atom : Atom token datum) :
    Atom (token.placed place) datum := by
  cases atom with
  | string quoted decoded => exact .string quoted decoded
  | literal word known => exact .literal word known
  | number word unknown written inRange => exact .number word unknown written inRange
  | symbol word unknown unwritten => exact .symbol word unknown unwritten

mutual

/-- The tokens of a form are those of the same form anywhere else, below any other number of lists and
quote marks that leaves room for its own. -/
theorem form_placed : ∀ {level other : Nat} {tokens : List Token} {datum : Datum},
    Form level tokens datum → other + datum.height ≤ maxNesting →
      Form other (tokens.map (placed place)) datum
  | _, _, _, _, .atom single, _ => .atom (atom_placed single)
  | _, _, _, _, .list opens closes _ between, room => by
    rw [Datum.height] at room
    rw [List.map_cons, List.map_append]
    exact .list opens closes (by omega) (forms_placed between (by omega))
  | _, _, _, _, .marked marks _ skipped behind, room => by
    simp only [Datum.marked, Datum.height, Datum.heightList] at room
    rw [List.map_cons, List.map_append]
    exact .marked marks (by omega) (List.forall_mem_map.mpr skipped) (form_placed behind (by omega))

theorem forms_placed : ∀ {level other : Nat} {tokens : List Token} {data : List Datum},
    Forms level tokens data → other + Datum.heightList data ≤ maxNesting →
      Forms other (tokens.map (placed place)) data
  | _, _, _, _, .nil, _ => .nil
  | _, _, _, _, .comment skipped others, room => .comment skipped (forms_placed others room)
  | _, _, _, _, .form one others, room => by
    rw [Datum.heightList] at room
    rw [List.map_append]
    exact .form (form_placed one (by omega)) (forms_placed others (by omega))

end

theorem forms_moved {tokens : List Token} {data : List Datum} (forms : Forms 0 tokens data) :
    Forms 0 (tokens.map (moved bytes)) data :=
  @forms_placed (·.start + bytes) _ _ _ _ forms (forms_height (Nat.zero_le _) forms)

theorem forms_append {level : Nat} {tokens others : List Token} {data more : List Datum}
    (forms : Forms level tokens data) (behind : Forms level others more) :
    Forms level (tokens ++ others) (data ++ more) := by
  induction forms using forms_induction with
  | nil => exact behind
  | comment skipped _ ih => exact .comment skipped ih
  | form one _ ih =>
    rw [List.append_assoc]
    exact .form one ih

end Grammar

namespace OpenForm

variable {bytes : Nat} {stack : Stack} {token : Token}

def moved (bytes : Nat) : OpenForm → OpenForm
  | list token delimiter => list (token.moved bytes) delimiter
  | marked token => marked (token.moved bytes)

def movedStep (bytes : Nat) : Except ReadError Stack → Except ReadError Stack
  | .ok stack => .ok (stack.map (moved bytes))
  | .error error => .error (error.moved bytes)

theorem complete_moved : complete (stack.map (moved bytes)) = (complete stack).map (moved bytes) := by
  induction stack with
  | nil => rfl
  | cons form stack ih =>
    cases form with
    | list token delimiter => rfl
    | marked token => exact ih

theorem push_moved {form : OpenForm} :
    push (token.moved bytes) (form.moved bytes) (stack.map (moved bytes)) =
      movedStep bytes (push token form stack) := by
  simp only [push, List.length_map]
  split
  · rfl
  · rfl

theorem close_moved {delimiter : Delimiter} :
    close (token.moved bytes) delimiter (stack.map (moved bytes)) =
      movedStep bytes (close token delimiter stack) := by
  cases stack with
  | nil => rfl
  | cons form stack =>
    cases form with
    | marked opened => rfl
    | list opened expected =>
      simp only [List.map_cons, moved, close]
      split
      · rw [complete_moved]
        rfl
      · rfl

theorem accept_moved :
    accept (stack.map (moved bytes)) (token.moved bytes) = movedStep bytes (accept stack token) := by
  have kind : (token.moved bytes).kind = token.kind := rfl
  have text : (token.moved bytes).text = token.text := rfl
  simp only [accept, kind, text, stringText_moved, complete_moved]
  cases token.kind with
  | opener delimiter => exact @push_moved bytes stack token (.list token delimiter)
  | marker marker => exact @push_moved bytes stack token (.marked token)
  | closer delimiter => exact close_moved
  | plainString => cases token.stringText <;> rfl
  | escapedString => cases token.stringText <;> rfl
  | word => cases Datum.ofWord? token.text <;> rfl
  | unclosedString => rfl
  | comment => rfl
  | eof => rfl

theorem foldlM_moved (tokens : List Token) (stack : Stack) :
    (tokens.map (Token.moved bytes)).foldlM accept (stack.map (moved bytes)) =
      movedStep bytes (tokens.foldlM accept stack) := by
  induction tokens generalizing stack with
  | nil => rfl
  | cons token tokens ih =>
    rw [List.map_cons, List.foldlM_cons, List.foldlM_cons, accept_moved]
    cases accept stack token with
    | error error => rfl
    | ok later => exact ih later

theorem finish_moved : finish (stack.map (moved bytes)) =
    (finish stack).mapError (ReadError.moved bytes) := by
  cases stack with
  | nil => rfl
  | cons form stack => cases form <;> rfl

theorem run_moved (tokens : List Token) (stack : Stack) :
    run (stack.map (moved bytes)) (tokens.map (Token.moved bytes)) =
      (run stack tokens).mapError (ReadError.moved bytes) := by
  rw [run, foldlM_moved, run]
  cases tokens.foldlM accept stack with
  | error error => rfl
  | ok later => exact finish_moved

end OpenForm

open OpenForm

namespace Datum

/-- The tokens behind a source that can be read are those of the next one, moved. -/
theorem lex_joined {source : String} {data : List Datum} (read : readAll source = .ok data)
    (more : String) :
    ∃ body, Grammar.Forms 0 body data ∧ lex (source ++ "\n" ++ more) =
      body ++ (lex more).map (Token.moved (byteLength source.toList + 1)) := by
  have accepted : run [] (lex source) = .ok () := exists_readAll_iff.mp ⟨data, read⟩
  rw [lex_lineBreak]
  cases lexFrom_joined 0 source.toList more.toList with
  | @closed body all alone whole =>
    rcases Reader.lex_of_readAll read with ⟨others, last, lexed, -, forms⟩
    rcases List.append_inj' (lexed.symm.trans alone) rfl with ⟨rfl, -⟩
    refine ⟨others, forms, ?_⟩
    rw [whole, lex, ← lexFrom_moved]
    simp
  | @unclosed body _ last ends _ kind alone =>
    -- an unclosed string cannot be read
    rcases foldlM_broken body [ends] [] (.unclosed kind) with ⟨error, refused⟩
    rw [lex, alone, run_error refused] at accepted
    cases accepted

theorem readAll_append {source other : String} {data others : List Datum}
    (read : readAll source = .ok data) (readOther : readAll other = .ok others) :
    readAll (source ++ "\n" ++ other) = .ok (data ++ others) := by
  rcases lex_joined read other with ⟨body, forms, joined⟩
  rcases Reader.lex_of_readAll readOther with ⟨tokens, last, lexed, ends, behind⟩
  rw [lexed, List.map_append, ← List.append_assoc] at joined
  exact Reader.readAll_complete joined ends (Grammar.forms_append forms (Grammar.forms_moved behind))

/-- What is read behind a line break is what would be read alone: the forms follow those of the first
source, and an error is the same one further on. -/
theorem readAll_joined (source more : String) (data : List Datum) (read : readAll source = .ok data) :
    (∀ others, readAll more = .ok others → readAll (source ++ "\n" ++ more) = .ok (data ++ others)) ∧
    ∀ error, readAll more = .error error →
      readAll (source ++ "\n" ++ more) = .error (error.moved (byteLength source.toList + 1)) := by
  refine ⟨fun others => readAll_append read, ?_⟩
  intro error failed
  rcases lex_joined read more with ⟨body, forms, joined⟩
  rw [readAll_eq_error_iff] at failed ⊢
  calc run [] (lex (source ++ "\n" ++ more))
    _ = run [] ((lex more).map (Token.moved _)) := by
      rw [joined, run_append (accept_forms forms [] rfl rfl)]
    _ = (run [] (lex more)).mapError (ReadError.moved _) := run_moved (lex more) []
    _ = .error (error.moved _) := by rw [failed, Except.mapError]

/-- The comment ends at the line break, and the letter in it takes two bytes. -/
theorem readAll_joined_comment :
    readAll "(a 'b) ; é" = .ok [.list [.symbol "a", .marked "quote" (.symbol "b")]] ∧
      readAll ("(a 'b) ; é" ++ "\n" ++ "c") =
        .ok [.list [.symbol "a", .marked "quote" (.symbol "b")], .symbol "c"] ∧
      readAll "c (d]" = .error ⟨⟨4, 1⟩, .mismatched (.closer .paren) (.closer .bracket)⟩ ∧
      readAll ("(a 'b) ; é" ++ "\n" ++ "c (d]") =
        .error ⟨⟨16, 1⟩, .mismatched (.closer .paren) (.closer .bracket)⟩ := by
  have read : readAll "(a 'b) ; é" = .ok [.list [.symbol "a", .marked "quote" (.symbol "b")]] := by cbv
  have readMore : readAll "c" = .ok [.symbol "c"] := by cbv
  have failed : readAll "c (d]" =
      .error ⟨⟨4, 1⟩, .mismatched (.closer .paren) (.closer .bracket)⟩ := by cbv
  exact ⟨read, (readAll_joined _ _ _ read).1 _ readMore, failed, (readAll_joined _ _ _ read).2 _ failed⟩

end Datum

end LispCompiler
