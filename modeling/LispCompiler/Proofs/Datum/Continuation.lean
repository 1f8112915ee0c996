import Mathlib
import LispCompiler.Proofs.Datum.OpenForms
import LispCompiler.Proofs.Token.Joining

namespace LispCompiler

open Token

theorem Token.inner_visible {token : Token} {text : String} (decoded : token.stringText = .ok text) :
    ∀ c ∈ token.inner, ' ' ≤ c := by
  unfold stringText at decoded
  split at decoded
  · cases plain : Quoted.decodePlain token.inner with
    | error flaw => simp [plain, Except.map] at decoded
    | ok inner =>
      unfold Quoted.decodePlain at plain
      split at plain
      · cases plain
      · next visible => simpa using visible
  · cases escaped : Quoted.decode token.inner with
    | error flaw => simp [escaped, Except.map] at decoded
    | ok inner => exact Quoted.decode_visible inner escaped

namespace OpenForm

variable {stack later : Stack} {token : Token} {tokens more : List Token} {error : ReadError}

theorem foldlM_cons_error (failed : (token :: tokens).foldlM accept stack = .error error) :
    accept stack token = .error error ∨
      ∃ later, accept stack token = .ok later ∧ tokens.foldlM accept later = .error error := by
  rw [List.foldlM_cons] at failed
  cases stepped : accept stack token with
  | error found => simpa [stepped, bind, Except.bind] using failed
  | ok later => simpa [stepped, bind, Except.bind] using failed

theorem run_eq_error (failed : run stack tokens = .error error) :
    tokens.foldlM accept stack = .error error ∨
      ∃ later, tokens.foldlM accept stack = .ok later ∧ finish later = .error error := by
  unfold run at failed
  cases accepted : tokens.foldlM accept stack with
  | error found => simpa [accepted, bind, Except.bind] using failed
  | ok later => simpa [accepted, bind, Except.bind] using failed

theorem run_error (failed : tokens.foldlM accept stack = .error error) :
    run stack tokens = .error error := by
  simp [run, failed, bind, Except.bind]

theorem foldlM_append_error (failed : tokens.foldlM accept stack = .error error) :
    (tokens ++ more).foldlM accept stack = .error error := by
  simp [List.foldlM_append, failed, bind, Except.bind]

section Errors

/-- The errors at the end of the input, which say what is still open there. -/
def Incomplete (error : ReadError) : Prop :=
  error.cause = .unbalanced ∨ error.cause = .unexpectedEof

theorem finish_incomplete (failed : finish stack = .error error) : Incomplete error := by
  cases stack with
  | nil => cases failed
  | cons form stack =>
    cases form with
    | list token delimiter =>
      cases failed
      exact .inl rfl
    | marked token =>
      cases failed
      exact .inr rfl

theorem push_not_incomplete {form : OpenForm} (failed : push token form stack = .error error) :
    ¬Incomplete error := by
  unfold push at failed
  split at failed
  · cases failed
    simp [Incomplete]
  · cases failed

theorem close_not_incomplete {delimiter : Delimiter} (failed : close token delimiter stack = .error error) :
    ¬Incomplete error := by
  unfold close at failed
  split at failed
  · split at failed
    · cases failed
    · cases failed
      simp [Incomplete]
  · cases failed
    simp [Incomplete]

theorem accept_not_incomplete (failed : accept stack token = .error error) : ¬Incomplete error := by
  unfold accept at failed
  split at failed
  · exact push_not_incomplete failed
  · exact push_not_incomplete failed
  · exact close_not_incomplete failed
  · split at failed
    · cases failed
    · cases failed
      simp [Incomplete]
  · split at failed
    · cases failed
    · cases failed
      simp [Incomplete]
  · split at failed
    · cases failed
    · cases failed
      simp [Incomplete]
  · cases failed
    simp [Incomplete]
  · cases failed
  · cases failed

theorem foldlM_not_incomplete (failed : tokens.foldlM accept stack = .error error) :
    ¬Incomplete error := by
  induction tokens generalizing stack with
  | nil => cases failed
  | cons token tokens ih =>
    rcases foldlM_cons_error failed with refused | ⟨later, -, behind⟩
    · exact accept_not_incomplete refused
    · exact ih behind

theorem accept_broken (stack : Stack) (broken : Broken token) : ∃ error, accept stack token = .error error := by
  cases broken with
  | unclosed kind => exact ⟨⟨token.span, .unclosedString⟩, by simp only [accept, kind]⟩
  | lineBreak quoted inside =>
    cases decoded : token.stringText with
    | ok text => exact absurd (inner_visible decoded _ inside) (by decide)
    | error flaw =>
      refine ⟨⟨token.span, .invalidString flaw⟩, ?_⟩
      rcases quoted with kind | kind <;> simp only [accept, kind, decoded]

theorem foldlM_broken (tokens more : List Token) (stack : Stack) (broken : Broken token) :
    ∃ error, (tokens ++ token :: more).foldlM accept stack = .error error := by
  cases accepted : tokens.foldlM accept stack with
  | error error => exact ⟨error, foldlM_append_error accepted⟩
  | ok later =>
    rcases accept_broken later broken with ⟨error, failed⟩
    refine ⟨error, ?_⟩
    simp [List.foldlM_append, List.foldlM_cons, accepted, failed, bind, Except.bind]

end Errors

section Completion

def closers : Stack → List Char
  | [] => []
  | list _ .paren :: stack => ')' :: closers stack
  | list _ .bracket :: stack => ']' :: closers stack
  | marked _ :: stack => closers stack

theorem lexFrom_closers (position : Nat) (form : Token) (delimiter : Delimiter) (stack : Stack) :
    ∃ token, lexFrom position (closers (list form delimiter :: stack)) =
      token :: lexFrom (position + 1) (closers stack) ∧ token.kind = .closer delimiter := by
  cases delimiter with
  | paren => exact ⟨_, lexFrom_piece rfl rfl, rfl⟩
  | bracket => exact ⟨_, lexFrom_piece rfl rfl, rfl⟩

theorem run_closers (stack : Stack) (position : Nat) :
    run (complete stack) (lexFrom position (closers stack)) = .ok () := by
  induction stack generalizing position with
  | nil =>
    rw [closers, lexFrom_nil, run_cons (accept_eof rfl)]
    rfl
  | cons form stack ih =>
    cases form with
    | list form delimiter =>
      rcases lexFrom_closers position form delimiter stack with ⟨token, lexed, closer⟩
      have closed : accept (list form delimiter :: stack) token = .ok (complete stack) := by
        rw [accept_closer closer]
        exact if_pos rfl
      rw [lexed]
      exact (run_cons closed).trans (ih (position + 1))
    | marked form => exact ih position

theorem separated_closers (stack : Stack) : Separated (closers stack) := by
  induction stack with
  | nil => simp [closers, Separated]
  | cons form stack ih =>
    cases form with
    | list form delimiter => cases delimiter <;> simp [closers, Separated] <;> rfl
    | marked form => exact ih

/-- An atom for the quote marks that wait for one, and then all closers. -/
def completion (stack : Stack) : List Char :=
  ['x'] ++ closers stack

theorem run_completion (stack : Stack) (position : Nat) :
    run stack (lexFrom position (completion stack)) = .ok () := by
  have word : IsWord ['x'] := isWord_of_all (by decide) (by decide) (by decide)
  have lexed : lexFrom position (completion stack) = _ := lexFrom_word word (separated_closers stack)
  have denoted : Datum.ofWord? (String.ofList ['x']) = some (.symbol "x") := by decide
  have atom : Grammar.Atom ⟨.word, position, String.ofList ['x']⟩ (.symbol "x") :=
    (Grammar.atom_word_iff rfl _).mpr denoted
  rw [lexed, run_cons (accept_atom atom)]
  exact run_closers stack _

end Completion

end OpenForm

open OpenForm

namespace Datum

theorem readAll_eq_error_iff {source : String} {error : ReadError} :
    readAll source = .error error ↔ run [] (lex source) = .error error := by
  rw [Reader.run_lex]
  cases readAll source <;> simp [Except.map]

theorem exists_readAll_iff {source : String} :
    (∃ data, readAll source = .ok data) ↔ run [] (lex source) = .ok () := by
  rw [Reader.run_lex]
  cases readAll source <;> simp [Except.map]

theorem lex_lineBreak (source more : String) :
    lex (source ++ "\n" ++ more) = lexFrom 0 (source.toList ++ '\n' :: more.toList) := by
  simp [lex]

/-- What refuses a token of a source refuses it whatever follows on the next line. -/
theorem run_lineBreak_error {source : String} {error : ReadError} (more : String)
    (failed : (lex source).foldlM accept [] = .error error) :
    ∃ error, run [] (lex (source ++ "\n" ++ more)) = .error error := by
  rw [lex_lineBreak]
  cases lexFrom_joined 0 source.toList more.toList with
  | closed all alone whole =>
    rw [lex, alone, foldlM_append_eof rfl] at failed
    exact ⟨error, by rw [whole, run_error (foldlM_append_error failed)]⟩
  | @unclosed body behind _ _ _ kind alone whole unreadable =>
    rcases foldlM_broken body behind [] unreadable with ⟨later, refused⟩
    exact ⟨later, by rw [whole, run_error refused]⟩

/-- What is open behind a source can be completed on the next line. -/
theorem run_lineBreak_completion {source : String} {stack : Stack}
    (accepted : (lex source).foldlM accept [] = .ok stack) :
    run [] (lex (source ++ "\n" ++ String.ofList (completion stack))) = .ok () := by
  rw [lex_lineBreak, String.toList_ofList]
  cases lexFrom_joined 0 source.toList (completion stack) with
  | closed all alone whole =>
    rw [lex, alone, foldlM_append_eof rfl] at accepted
    rw [whole, run_append accepted]
    exact run_completion stack _
  | @unclosed body _ _ ends _ kind alone =>
    -- the pass would not have come to its end over an unclosed string
    rcases foldlM_broken body [ends] [] (.unclosed kind) with ⟨error, refused⟩
    rw [lex, alone, refused] at accepted
    cases accepted

/-- A source that cannot be read can be continued on the next line if and only if its error is that a
list or a quote mark is open at its end. -/
theorem exists_continuation_iff (source : String) (error : ReadError)
    (failed : readAll source = .error error) :
    (∃ more data, readAll (source ++ "\n" ++ more) = .ok data) ↔
      error.cause = .unbalanced ∨ error.cause = .unexpectedEof := by
  rw [readAll_eq_error_iff] at failed
  rcases run_eq_error failed with refused | ⟨stack, accepted, unfinished⟩
  · refine iff_of_false ?_ (foldlM_not_incomplete refused)
    intro continued
    rcases continued with ⟨more, readable⟩
    rcases run_lineBreak_error more refused with ⟨later, stays⟩
    rw [exists_readAll_iff, stays] at readable
    cases readable
  · refine iff_of_true ?_ (finish_incomplete unfinished)
    exact ⟨_, exists_readAll_iff.mpr (run_lineBreak_completion accepted)⟩

/-- A list, a quote mark and a vector are open here, with a comment behind them. -/
theorem exists_continuation_openForms :
    readAll "(def a '[1 \"b\" ; c" = .error ⟨⟨8, 1⟩, .unbalanced⟩ ∧
      ∃ more data, readAll ("(def a '[1 \"b\" ; c" ++ "\n" ++ more) = .ok data := by
  have failed : readAll "(def a '[1 \"b\" ; c" = .error ⟨⟨8, 1⟩, .unbalanced⟩ := by cbv
  exact ⟨failed, (exists_continuation_iff _ _ failed).mpr (.inl rfl)⟩

end Datum

end LispCompiler
