import LispCompiler.Proofs.Datum.Reading

/-!
One pass over the tokens, with a stack of the lists and quote marks that are open. Main statement: a
source is read if and only if the pass ends with nothing open, and otherwise both fail in the same
way.
-/

namespace LispCompiler

inductive OpenForm where
  | list (token : Token) (delimiter : Delimiter)
  | marked (token : Token)
  deriving DecidableEq, Repr

namespace OpenForm

abbrev Stack :=
  List OpenForm

def complete : Stack → Stack
  | marked _ :: stack => complete stack
  | stack => stack

def push (token : Token) (form : OpenForm) (stack : Stack) : Except ReadError Stack :=
  if maxNesting ≤ stack.length then .error ⟨token.span, .nestingTooDeep⟩ else .ok (form :: stack)

def close (token : Token) (delimiter : Delimiter) : Stack → Except ReadError Stack
  | list _ expected :: stack =>
    if delimiter = expected then .ok (complete stack)
    else .error ⟨token.span, .mismatched (.closer expected) (.closer delimiter)⟩
  | _ => .error ⟨token.span, .unexpectedCloser⟩

def accept (stack : Stack) (token : Token) : Except ReadError Stack :=
  match token.kind with
  | .opener delimiter => push token (list token delimiter) stack
  | .marker _ => push token (marked token) stack
  | .closer delimiter => close token delimiter stack
  | .plainString | .escapedString =>
    match token.stringText with
    | .ok _ => .ok (complete stack)
    | .error flaw => .error ⟨token.span, .invalidString flaw⟩
  | .word =>
    match Datum.ofWord? token.text with
    | some _ => .ok (complete stack)
    | none => .error ⟨token.span, .numberOutOfRange⟩
  | .unclosedString => .error ⟨token.span, .unclosedString⟩
  | .comment | .eof => .ok stack

def finish : Stack → Except ReadError Unit
  | [] => .ok ()
  | list token _ :: _ => .error ⟨token.span, .unbalanced⟩
  | marked token :: _ => .error ⟨token.span, .unexpectedEof⟩

def run (stack : Stack) (tokens : List Token) : Except ReadError Unit := do
  finish (← tokens.foldlM accept stack)

section Steps

variable {stack : Stack} {token : Token} {tokens more : List Token} {error : ReadError}

theorem run_cons {later : Stack} (stepped : accept stack token = .ok later) :
    run stack (token :: tokens) = run later tokens := by
  simp [run, List.foldlM_cons, stepped, bind, Except.bind]

theorem run_cons_error (failed : accept stack token = .error error) :
    run stack (token :: tokens) = .error error := by
  simp [run, List.foldlM_cons, failed, bind, Except.bind]

theorem run_append {later : Stack} (accepted : tokens.foldlM accept stack = .ok later) :
    run stack (tokens ++ more) = run later more := by
  simp [run, List.foldlM_append, accepted, bind, Except.bind]

theorem accept_eof (kind : token.kind = .eof) : accept stack token = .ok stack := by
  simp only [accept, kind]

theorem foldlM_append_eof (ends : token.kind = .eof) :
    (tokens ++ [token]).foldlM accept stack = tokens.foldlM accept stack := by
  rw [List.foldlM_append]
  cases tokens.foldlM accept stack with
  | error error => rfl
  | ok later => simp [bind, Except.bind, accept_eof ends, pure, Except.pure]

theorem accept_comment (kind : token.kind = .comment) : accept stack token = .ok stack := by
  simp only [accept, kind]

theorem accept_opener {delimiter : Delimiter} (kind : token.kind = .opener delimiter) :
    accept stack token = push token (list token delimiter) stack := by
  simp only [accept, kind]

theorem accept_marker {marker : Marker} (kind : token.kind = .marker marker) :
    accept stack token = push token (marked token) stack := by
  simp only [accept, kind]

theorem accept_closer {delimiter : Delimiter} (kind : token.kind = .closer delimiter) :
    accept stack token = close token delimiter stack := by
  simp only [accept, kind]

theorem push_ok {form : OpenForm} (shallow : stack.length < maxNesting) :
    push token form stack = .ok (form :: stack) :=
  if_neg (Nat.not_le.mpr shallow)

theorem accept_atom {datum : Datum} (atom : Grammar.Atom token datum) :
    accept stack token = .ok (complete stack) := by
  rcases or_assoc.mpr (Grammar.atom_kind atom) with quoted | word
  · rcases (Grammar.atom_string_iff quoted datum).mp atom with ⟨text, decoded, -⟩
    rcases quoted with kind | kind <;> simp only [accept, kind, decoded]
  · have denoted := (Grammar.atom_word_iff word datum).mp atom
    simp only [accept, word, denoted]

end Steps

section Grammar

open LispCompiler.Grammar

theorem accept_comments {stack : Stack} {comments : List Token} (skipped : Comments comments) :
    comments.foldlM accept stack = .ok stack := by
  induction comments with
  | nil => rfl
  | cons comment comments ih =>
    rcases List.forall_mem_cons.mp skipped with ⟨kind, skipped⟩
    simp [List.foldlM_cons, accept_comment kind, bind, Except.bind, ih skipped]

mutual

/-- The tokens of a form complete an item. -/
theorem accept_form : ∀ {level : Nat} {tokens : List Token} {datum : Datum},
    Form level tokens datum → ∀ stack : Stack, stack.length = level →
      tokens.foldlM accept stack = .ok (complete stack)
  | _, _, _, .atom single, stack, _ => by
    simp [List.foldlM_cons, accept_atom single, bind, Except.bind, pure, Except.pure]
  | _, _, _, @Form.list _ first _ delimiter _ _ opens closes shallow between, stack, level => by
    have inside := accept_forms between (list first delimiter :: stack) (congrArg (· + 1) level) rfl
    rw [← level] at shallow
    simp [List.foldlM_cons, accept_opener opens, push_ok shallow, accept_closer closes, inside, close,
      bind, Except.bind, pure, Except.pure]
  | _, _, _, @Form.marked _ first _ _ _ _ marks shallow skipped behind, stack, level => by
    have operand := accept_form behind (marked first :: stack) (congrArg (· + 1) level)
    rw [← level] at shallow
    simp [List.foldlM_cons, accept_marker marks, push_ok shallow, accept_comments skipped, operand,
      complete, bind, Except.bind]

/-- Forms one after the other leave everything as it was, where no quote mark waits for them. -/
theorem accept_forms : ∀ {level : Nat} {tokens : List Token} {data : List Datum},
    Forms level tokens data → ∀ stack : Stack, stack.length = level → complete stack = stack →
      tokens.foldlM accept stack = .ok stack
  | _, _, _, .nil, _, _, _ => rfl
  | _, _, _, .comment skipped others, stack, level, settled => by
    have behind := accept_forms others stack level settled
    simp [List.foldlM_cons, accept_comment skipped, behind, bind, Except.bind]
  | _, _, _, .form one others, stack, level, settled => by
    have first := accept_form one stack level
    have behind := accept_forms others stack level settled
    simp [List.foldlM_append, first, settled, behind, bind, Except.bind]

end

end Grammar

end OpenForm

namespace Reader

open OpenForm

section Failures

variable {tokens rest : List Token} {token first : Token} {error : ReadError} {reader after : Reader}
  {depth fuel level levels : Nat} {read : Read (Option Datum)} {delimiter : Delimiter}

theorem bind_eq_error {body : Read α} {next : α → Read β} :
    (body >>= next) reader = .error error after ↔ body reader = .error error after ∨
      ∃ found middle, body reader = .ok found middle ∧ next found middle = .error error after := by
  simp only [bind, EStateM.bind]
  cases body reader <;> simp [and_assoc]

theorem nested_map_eq_error {f : α → β} {body : Read α}
    (failed : nested token (f <$> body) ⟨rest, depth⟩ = .error error after) :
    (maxNesting ≤ depth ∧ error = ⟨token.span, .nestingTooDeep⟩) ∨
      (depth < maxNesting ∧ ∃ inner, body ⟨rest, depth + 1⟩ = .error error inner) := by
  by_cases deep : maxNesting ≤ depth
  · have fails : nested token (f <$> body) ⟨rest, depth⟩ =
        .error ⟨token.span, .nestingTooDeep⟩ ⟨rest, depth⟩ := if_pos deep
    rw [fails] at failed
    cases failed
    exact .inl ⟨deep, rfl⟩
  · refine .inr ⟨Nat.lt_of_not_le deep, ?_⟩
    simp only [nested, if_neg deep, Functor.map, EStateM.map, enter] at failed
    cases inside : body ⟨rest, depth + 1⟩ with
    | ok value inner => simp [inside] at failed
    | error found inner =>
      simp only [inside, EStateM.Result.error.injEq] at failed
      exact ⟨inner, by rw [failed.1]⟩

theorem unread_cons (more : token.kind ≠ .eof) : unread (token :: rest) = token :: unread rest := by
  simp [unread, Token.isEof, more]

/-- Where the reader fails on a form, so does the pass. Closers are not looked at here, because lists
take theirs before they read a form. -/
def FailsAlike (read : Read (Option Datum)) (level : Nat) : Prop :=
  ∀ stack token rest error after, List.length stack = level → (∀ other, token.kind ≠ .closer other) →
    read ⟨token :: rest, level⟩ = .error error after →
      run stack (unread (token :: rest)) = .error error

theorem readItems_fails {stack : Stack} (reads : Reads read (stack.length + 1))
    (fails : FailsAlike read (stack.length + 1)) (fueled : tokens.length ≤ fuel)
    (failed : readItems read first delimiter fuel ⟨tokens, stack.length + 1⟩ = .error error after) :
    run (list first delimiter :: stack) (unread tokens) = .error error := by
  induction fuel generalizing tokens with
  | zero =>
    obtain rfl := List.length_eq_zero_iff.mp (Nat.le_zero.mp fueled)
    cases failed
    rfl
  | succ fuel ih =>
    cases tokens with
    | nil =>
      rw [readItems_atEnd rfl] at failed
      cases failed
      rfl
    | cons token rest =>
      have remaining : rest.length ≤ fuel := Nat.le_of_succ_le_succ fueled
      by_cases ended : token.kind = .eof
      · have atEnd : atEnd ⟨token :: rest, stack.length + 1⟩ := atEnd_cons.mpr ended
        rw [readItems_atEnd atEnd] at failed
        cases failed
        rw [unread_atEnd atEnd]
        rfl
      rw [unread_cons ended]
      by_cases closer : ∃ other, token.kind = .closer other
      · rcases closer with ⟨other, kind⟩
        by_cases matching : other = delimiter
        · rw [readItems_closer (matching ▸ kind)] at failed
          cases failed
        · rw [readItems_mismatch kind matching] at failed
          cases failed
          apply run_cons_error
          simp [accept_closer kind, close, matching]
      have stays : ∀ other, token.kind ≠ .closer other := fun other kind => closer ⟨other, kind⟩
      rw [readItems_item ended stays] at failed
      rcases bind_eq_error.mp failed with inside | ⟨item, middle, taken, later⟩
      · have whole := fails (list first delimiter :: stack) token rest error after rfl stays inside
        rwa [unread_cons ended] at whole
      rcases bind_eq_error.mp later with behind | ⟨others, last, -, done⟩
      · cases (reads _ _ _).mp taken with
        | atEnd none => exact absurd (atEnd_cons.mp none) ended
        | comment skipped =>
          rw [run_cons (accept_comment skipped)]
          exact ih remaining behind
        | @form _ used rest' datum split one =>
          rw [← unread_cons ended, split, unread_append (Grammar.form_ne_eof one),
            run_append (accept_form one _ rfl)]
          apply ih ?_ behind
          rcases Grammar.form_head one with ⟨head, tail, rfl, -⟩
          have length := congrArg List.length split
          simp only [List.length_append, List.length_cons] at length fueled
          omega
      · cases done

theorem readOperand_fails {stack : Stack} (reads : Reads read (stack.length + 1))
    (fails : FailsAlike read (stack.length + 1))
    (refuses : ∀ token rest other, token.kind = .closer other →
      ∃ after, read ⟨token :: rest, stack.length + 1⟩ = .error ⟨token.span, .unexpectedCloser⟩ after)
    (fueled : tokens.length ≤ fuel)
    (failed : readOperand read first fuel ⟨tokens, stack.length + 1⟩ = .error error after) :
    run (marked first :: stack) (unread tokens) = .error error := by
  induction fuel generalizing tokens with
  | zero =>
    obtain rfl := List.length_eq_zero_iff.mp (Nat.le_zero.mp fueled)
    cases failed
    rfl
  | succ fuel ih =>
    cases tokens with
    | nil =>
      rw [readOperand_atEnd rfl] at failed
      cases failed
      rfl
    | cons token rest =>
      by_cases ended : token.kind = .eof
      · have atEnd : atEnd ⟨token :: rest, stack.length + 1⟩ := atEnd_cons.mpr ended
        rw [readOperand_atEnd atEnd] at failed
        cases failed
        rw [unread_atEnd atEnd]
        rfl
      rw [readOperand_cons ended] at failed
      rcases bind_eq_error.mp failed with inside | ⟨found, middle, taken, later⟩
      · by_cases closer : ∃ other, token.kind = .closer other
        · rcases closer with ⟨other, kind⟩
          rcases refuses token rest other kind with ⟨_, refused⟩
          rw [refused] at inside
          cases inside
          rw [unread_cons ended]
          apply run_cons_error
          simp [accept_closer kind, close]
        · exact fails _ token rest error after rfl (fun other kind => closer ⟨other, kind⟩) inside
      · cases (reads _ _ _).mp taken with
        | atEnd none => exact absurd (atEnd_cons.mp none) ended
        | comment skipped =>
          rw [unread_cons ended, run_cons (accept_comment skipped)]
          exact ih (Nat.le_of_succ_le_succ fueled) later
        | form split one => cases later

theorem readForm_fails_single {stack : Stack}
    (kind : token.kind = .plainString ∨ token.kind = .escapedString ∨ token.kind = .word)
    (failed : readForm levels ⟨token :: rest, depth⟩ = .error error after) :
    accept stack token = .error error := by
  rcases or_assoc.mpr kind with quoted | word
  · rw [readForm_string quoted] at failed
    cases decoded : token.stringText with
    | ok text => simp [decoded] at failed
    | error flaw =>
      simp only [decoded, EStateM.Result.error.injEq] at failed
      rw [← failed.1]
      rcases quoted with kind | kind <;> simp only [accept, kind, decoded]
  · rw [readForm_word word] at failed
    cases denoted : Datum.ofWord? token.text with
    | some atom => simp [denoted] at failed
    | none =>
      simp only [denoted, EStateM.Result.error.injEq] at failed
      rw [← failed.1]
      simp only [accept, word, denoted]

/-- Opening a list or a quote mark fails alike, and so does all that is read inside it. -/
theorem readForm_fails_opening {stack : Stack} {form : OpenForm} {f : α → Option Datum} {body : Read α}
    (stepped : accept stack token = push token form stack)
    (inside : ∀ inner, body ⟨rest, stack.length + 1⟩ = .error error inner →
      run (form :: stack) (unread rest) = .error error)
    (failed : nested token (f <$> body) ⟨rest, stack.length⟩ = .error error after) :
    run stack (token :: unread rest) = .error error := by
  rcases nested_map_eq_error failed with ⟨deep, rfl⟩ | ⟨shallow, inner, failed⟩
  · exact run_cons_error (stepped.trans (if_pos deep))
  · rw [run_cons (stepped.trans (push_ok shallow))]
    exact inside inner failed

theorem readForm_fails_of
    (below : ∀ less, levels = less + 1 → Reads (readForm less) (level + 1) ∧
      FailsAlike (readForm less) (level + 1))
    (enough : maxNesting ≤ levels + level) : FailsAlike (readForm levels) level := by
  intro stack token rest error after depth stays failed
  subst depth
  by_cases ended : token.kind = .eof
  · simp [readForm_atEnd (atEnd_cons.mpr ended)] at failed
  rw [unread_cons ended]
  cases kind : token.kind with
  | eof => exact absurd kind ended
  | comment => simp [readForm_comment kind] at failed
  | opener delimiter =>
    cases levels with
    | zero =>
      rw [readForm_zero (.inl ⟨delimiter, kind⟩)] at failed
      cases failed
      exact run_cons_error ((accept_opener kind).trans (if_pos (by omega)))
    | succ levels =>
      rcases below levels rfl with ⟨reads, fails⟩
      rw [readForm_opener kind] at failed
      refine readForm_fails_opening (accept_opener kind) ?_ failed
      intro inner inside
      exact readItems_fails reads fails (Nat.le_refl _) inside
  | marker marker =>
    cases levels with
    | zero =>
      rw [readForm_zero (.inr ⟨marker, kind⟩)] at failed
      cases failed
      exact run_cons_error ((accept_marker kind).trans (if_pos (by omega)))
    | succ levels =>
      rcases below levels rfl with ⟨reads, fails⟩
      rw [readForm_marker kind] at failed
      refine readForm_fails_opening (accept_marker kind) ?_ failed
      intro inner inside
      exact readOperand_fails reads fails (fun _ _ _ closer => ⟨_, readForm_closer closer⟩)
        (Nat.le_refl _) inside
  | closer other => exact absurd kind (stays other)
  | unclosedString =>
    rw [readForm_unclosed kind] at failed
    cases failed
    exact run_cons_error (by simp only [accept, kind])
  | plainString | escapedString | word =>
    exact run_cons_error (readForm_fails_single (by simp [kind]) failed)

theorem readForm_fails (enough : maxNesting ≤ levels + level) : FailsAlike (readForm levels) level := by
  induction levels generalizing level with
  | zero => exact readForm_fails_of nofun enough
  | succ levels ih =>
    refine readForm_fails_of ?_ enough
    rintro less ⟨⟩
    exact ⟨readForm_reads (by omega), ih (by omega)⟩

theorem readForms_fails (fueled : tokens.length ≤ fuel)
    (failed : readForms fuel ⟨tokens, 0⟩ = .error error after) :
    run [] (unread tokens) = .error error := by
  induction fuel generalizing tokens with
  | zero => cases failed
  | succ fuel ih =>
    cases tokens with
    | nil =>
      rw [readForms_atEnd rfl] at failed
      cases failed
    | cons token rest =>
      by_cases ended : token.kind = .eof
      · simp [readForms_atEnd (atEnd_cons.mpr ended)] at failed
      rw [readForms_cons ended] at failed
      rcases bind_eq_error.mp failed with inside | ⟨form, middle, taken, later⟩
      · by_cases closer : ∃ other, token.kind = .closer other
        · rcases closer with ⟨other, kind⟩
          rw [readForm_closer kind] at inside
          cases inside
          rw [unread_cons ended]
          exact run_cons_error (accept_closer kind)
        · exact readForm_fails (Nat.le_refl _) [] token rest error after rfl
            (fun other kind => closer ⟨other, kind⟩) inside
      rcases bind_eq_error.mp later with behind | ⟨others, last, -, done⟩
      · cases (readForm_top _ _ _).mp taken with
        | atEnd none => exact absurd (atEnd_cons.mp none) ended
        | comment skipped =>
          rw [unread_cons ended, run_cons (accept_comment skipped)]
          exact ih (Nat.le_of_succ_le_succ fueled) behind
        | @form _ used rest' datum split one =>
          rw [split, unread_append (Grammar.form_ne_eof one), run_append (accept_form one [] rfl)]
          apply ih ?_ behind
          rcases Grammar.form_head one with ⟨head, tail, rfl, -⟩
          have length := congrArg List.length split
          simp only [List.length_append, List.length_cons] at length fueled
          omega
      · cases done

end Failures

/-- The pass over the tokens of a source comes out as reading does. -/
theorem run_lex (source : String) :
    run [] (Token.lex source) = (Datum.readAll source).map fun _ => () := by
  rcases Token.lexFrom_ends 0 source.toList with ⟨body, last, lexed, ends, others⟩
  change Token.lex source = body ++ [last] at lexed
  have ended : atEnd ⟨[last], 0⟩ := atEnd_cons.mpr ends
  have whole : unread (Token.lex source) = body := by
    rw [lexed, unread_append others, unread_atEnd ended, List.append_nil]
  have upToEnd : run [] (Token.lex source) = run [] (unread (Token.lex source)) := by
    rw [whole, run, lexed, foldlM_append_eof ends, run]
  rw [upToEnd]
  unfold Datum.readAll
  rw [withFuel, get_bind, ofSource]
  cases read : readForms (Token.lex source).length ⟨Token.lex source, 0⟩ with
  | error error after => exact readForms_fails (Nat.le_refl _) read
  | ok data after =>
    rcases readForms_sound read (Nat.le_refl _) with ⟨used, rest, split, stopped, forms⟩
    rw [split, unread_append (Grammar.forms_ne_eof forms), unread_atEnd stopped,
      run_append (accept_forms forms [] rfl rfl)]
    rfl

end Reader

end LispCompiler
