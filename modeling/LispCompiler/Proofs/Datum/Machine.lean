import LispCompiler.Proofs.Datum.Continuation

namespace LispCompiler

namespace OpenForm

section Rules

inductive Opens (token : Token) : OpenForm → Prop
  | list {delimiter : Delimiter} (kind : token.kind = .opener delimiter) : Opens token (list token delimiter)
  | marked {marker : Marker} (kind : token.kind = .marker marker) : Opens token (marked token)

inductive Takes : Stack → Token → Stack → Prop
  | comment {stack : Stack} {token : Token} (kind : token.kind = .comment) : Takes stack token stack
  | opening {stack : Stack} {token : Token} {form : OpenForm} (opens : Opens token form)
      (room : stack.length < maxNesting) : Takes stack token (form :: stack)
  | item {stack : Stack} {token : Token} {datum : Datum} (atom : Grammar.Atom token datum) :
      Takes stack token (complete stack)
  | closing {stack : Stack} {token first : Token} {delimiter : Delimiter}
      (kind : token.kind = .closer delimiter) : Takes (list first delimiter :: stack) token (complete stack)
  | ending {token : Token} (kind : token.kind = .eof) : Takes [] token []

inductive Refuses : Stack → Token → ReadError → Prop
  | tooDeep {stack : Stack} {token : Token} {form : OpenForm} (opens : Opens token form)
      (full : maxNesting ≤ stack.length) : Refuses stack token ⟨token.span, .nestingTooDeep⟩
  | closesNothing {token : Token} {delimiter : Delimiter} (kind : token.kind = .closer delimiter) :
      Refuses [] token ⟨token.span, .unexpectedCloser⟩
  | closesMarker {stack : Stack} {token first : Token} {delimiter : Delimiter}
      (kind : token.kind = .closer delimiter) :
      Refuses (marked first :: stack) token ⟨token.span, .unexpectedCloser⟩
  | mismatched {stack : Stack} {token first : Token} {expected delimiter : Delimiter}
      (kind : token.kind = .closer delimiter) (other : delimiter ≠ expected) :
      Refuses (list first expected :: stack) token
        ⟨token.span, .mismatched (.closer expected) (.closer delimiter)⟩
  | invalidString {stack : Stack} {token : Token} {flaw : Quoted.Flaw}
      (kind : token.kind = .plainString ∨ token.kind = .escapedString)
      (flawed : token.stringText = .error flaw) : Refuses stack token ⟨token.span, .invalidString flaw⟩
  | unclosedString {stack : Stack} {token : Token} (kind : token.kind = .unclosedString) :
      Refuses stack token ⟨token.span, .unclosedString⟩
  | outOfRange {stack : Stack} {token : Token} (kind : token.kind = .word)
      (beyond : Datum.ofWord? token.text = none) : Refuses stack token ⟨token.span, .numberOutOfRange⟩
  | openList {stack : Stack} {token first : Token} {delimiter : Delimiter} (kind : token.kind = .eof) :
      Refuses (list first delimiter :: stack) token ⟨first.span, .unbalanced⟩
  | openMarker {stack : Stack} {token first : Token} (kind : token.kind = .eof) :
      Refuses (marked first :: stack) token ⟨first.span, .unexpectedEof⟩

inductive TakesAll : Stack → List Token → Stack → Prop
  | nil {stack : Stack} : TakesAll stack [] stack
  | cons {stack middle last : Stack} {token : Token} {tokens : List Token} (first : Takes stack token middle)
      (others : TakesAll middle tokens last) : TakesAll stack (token :: tokens) last

def Stops (stack : Stack) (tokens : List Token) (error : ReadError) : Prop :=
  ∃ before token behind middle, tokens = before ++ token :: behind ∧ TakesAll stack before middle ∧
    Refuses middle token error

end Rules

section Moves

variable {stack later : Stack} {token : Token} {tokens : List Token} {error : ReadError} {form : OpenForm}

def advance (stack : Stack) (token : Token) : Except ReadError Stack :=
  if token.isEof then (finish stack).map fun _ => [] else accept stack token

theorem advance_eof (kind : token.kind = .eof) :
    advance stack token = (finish stack).map fun _ => [] := by
  simp [advance, Token.isEof, kind]

theorem advance_of_ne_eof (kind : token.kind ≠ .eof) : advance stack token = accept stack token := by
  simp [advance, Token.isEof, kind]

theorem advance_opens (opens : Opens token form) : advance stack token = push token form stack := by
  cases opens with
  | list kind => rw [advance_of_ne_eof (by simp [kind]), accept_opener kind]
  | marked kind => rw [advance_of_ne_eof (by simp [kind]), accept_marker kind]

theorem advance_closer {delimiter : Delimiter} (kind : token.kind = .closer delimiter) :
    advance stack token = close token delimiter stack := by
  rw [advance_of_ne_eof (by simp [kind]), accept_closer kind]

theorem advance_atom {datum : Datum} (atom : Grammar.Atom token datum) :
    advance stack token = .ok (complete stack) := by
  have kind : token.kind ≠ .eof := by
    rcases Grammar.atom_kind atom with kind | kind | kind <;> simp [kind]
  rw [advance_of_ne_eof kind, accept_atom atom]

theorem Takes.advance_eq (takes : Takes stack token later) : advance stack token = .ok later := by
  cases takes with
  | comment kind => rw [advance_of_ne_eof (by simp [kind]), accept_comment kind]
  | opening opens room => rw [advance_opens opens, push_ok room]
  | item atom => exact advance_atom atom
  | closing kind => simp [advance_closer kind, close]
  | ending kind => rw [advance_eof kind, finish, Except.map]

theorem Refuses.advance_eq (refuses : Refuses stack token error) : advance stack token = .error error := by
  cases refuses with
  | tooDeep opens full =>
    rw [advance_opens opens]
    exact if_pos full
  | closesNothing kind => simp [advance_closer kind, close]
  | closesMarker kind => simp [advance_closer kind, close]
  | mismatched kind other => simp [advance_closer kind, close, other]
  | invalidString quoted flawed =>
    rcases quoted with kind | kind <;> simp [advance, Token.isEof, accept, kind, flawed]
  | unclosedString kind => simp [advance, Token.isEof, accept, kind]
  | outOfRange kind beyond => simp [advance, Token.isEof, accept, kind, beyond]
  | openList kind => rw [advance_eof kind, finish, Except.map]
  | openMarker kind => rw [advance_eof kind, finish, Except.map]

def Moves (stack : Stack) (token : Token) : Prop :=
  (∃ later, Takes stack token later) ∨ ∃ error, Refuses stack token error

theorem moves_opens (opens : Opens token form) : Moves stack token := by
  rcases Nat.lt_or_ge stack.length maxNesting with room | full
  · exact .inl ⟨_, .opening opens room⟩
  · exact .inr ⟨_, .tooDeep opens full⟩

theorem moves_closer {delimiter : Delimiter} (kind : token.kind = .closer delimiter) :
    Moves stack token := by
  match stack with
  | [] => exact .inr ⟨_, .closesNothing kind⟩
  | marked first :: stack => exact .inr ⟨_, .closesMarker kind⟩
  | list first expected :: stack =>
    by_cases other : delimiter = expected
    · exact .inl ⟨_, .closing (other ▸ kind)⟩
    · exact .inr ⟨_, .mismatched kind other⟩

theorem moves_string (quoted : token.kind = .plainString ∨ token.kind = .escapedString) :
    Moves stack token := by
  cases decoded : token.stringText with
  | ok text => exact .inl ⟨_, .item ((Grammar.atom_string_iff quoted _).mpr ⟨text, decoded, rfl⟩)⟩
  | error flaw => exact .inr ⟨_, .invalidString quoted decoded⟩

theorem moves_word (kind : token.kind = .word) : Moves stack token := by
  cases denoted : Datum.ofWord? token.text with
  | some atom => exact .inl ⟨_, .item ((Grammar.atom_word_iff kind atom).mpr denoted)⟩
  | none => exact .inr ⟨_, .outOfRange kind denoted⟩

theorem moves_eof (kind : token.kind = .eof) : Moves stack token := by
  match stack with
  | [] => exact .inl ⟨_, .ending kind⟩
  | list first delimiter :: stack => exact .inr ⟨_, .openList kind⟩
  | marked first :: stack => exact .inr ⟨_, .openMarker kind⟩

theorem moves (stack : Stack) (token : Token) : Moves stack token := by
  cases kind : token.kind with
  | opener delimiter => exact moves_opens (.list kind)
  | closer delimiter => exact moves_closer kind
  | marker marker => exact moves_opens (.marked kind)
  | plainString => exact moves_string (.inl kind)
  | escapedString => exact moves_string (.inr kind)
  | unclosedString => exact .inr ⟨_, .unclosedString kind⟩
  | comment => exact .inl ⟨_, .comment kind⟩
  | word => exact moves_word kind
  | eof => exact moves_eof kind

theorem takes_iff : Takes stack token later ↔ advance stack token = .ok later := by
  constructor
  · exact Takes.advance_eq
  · intro advanced
    rcases moves stack token with ⟨other, takes⟩ | ⟨error, refuses⟩
    · rw [takes.advance_eq, Except.ok.injEq] at advanced
      exact advanced ▸ takes
    · rw [refuses.advance_eq] at advanced
      cases advanced

theorem refuses_iff : Refuses stack token error ↔ advance stack token = .error error := by
  constructor
  · exact Refuses.advance_eq
  · intro failed
    rcases moves stack token with ⟨later, takes⟩ | ⟨other, refuses⟩
    · rw [takes.advance_eq] at failed
      cases failed
    · rw [refuses.advance_eq, Except.error.injEq] at failed
      exact failed ▸ refuses

end Moves

section Runs

variable {stack last : Stack} {tokens : List Token} {error : ReadError}

theorem takesAll_iff : TakesAll stack tokens last ↔ tokens.foldlM advance stack = .ok last := by
  induction tokens generalizing stack with
  | nil =>
    constructor
    · intro takes
      cases takes
      rfl
    · intro done
      cases done
      exact .nil
  | cons token tokens ih =>
    rw [List.foldlM_cons]
    constructor
    · intro takes
      cases takes with
      | cons first others =>
        rw [takes_iff.mp first]
        exact ih.mp others
    · intro done
      cases advanced : advance stack token with
      | error error => simp [advanced, bind, Except.bind] at done
      | ok middle =>
        rw [advanced] at done
        exact .cons (takes_iff.mpr advanced) (ih.mpr done)

theorem stops_iff : Stops stack tokens error ↔ tokens.foldlM advance stack = .error error := by
  induction tokens generalizing stack with
  | nil =>
    refine iff_of_false ?_ (by simp [pure, Except.pure])
    intro stops
    rcases stops with ⟨before, token, behind, middle, split, -⟩
    simp at split
  | cons token tokens ih =>
    rw [List.foldlM_cons]
    constructor
    · intro stops
      rcases stops with ⟨before, refused, behind, middle, split, taken, refuses⟩
      cases taken with
      | nil =>
        cases split
        rw [refuses_iff.mp refuses]
        rfl
      | cons first others =>
        cases split
        rw [takes_iff.mp first]
        exact ih.mp ⟨_, _, _, _, rfl, others, refuses⟩
    · intro failed
      cases advanced : advance stack token with
      | error found =>
        rw [advanced] at failed
        cases failed
        exact ⟨[], token, tokens, stack, rfl, .nil, refuses_iff.mpr advanced⟩
      | ok middle =>
        rw [advanced] at failed
        rcases ih.mpr failed with ⟨before, refused, behind, last, rfl, taken, refuses⟩
        exact ⟨token :: before, refused, behind, last, rfl, .cons (takes_iff.mpr advanced) taken, refuses⟩

theorem foldlM_advance_eq (others : ∀ token ∈ tokens, token.kind ≠ .eof) :
    tokens.foldlM advance stack = tokens.foldlM accept stack := by
  induction tokens generalizing stack with
  | nil => rfl
  | cons token tokens ih =>
    rw [List.forall_mem_cons] at others
    rw [List.foldlM_cons, List.foldlM_cons, advance_of_ne_eof others.1]
    exact congrArg _ (funext fun later => ih others.2)

theorem foldlM_advance_lex (source : String) :
    (Token.lex source).foldlM advance [] = (Datum.readAll source).map fun _ => [] := by
  rcases Token.lexFrom_ends 0 source.toList with ⟨body, last, lexed, ends, others⟩
  change Token.lex source = body ++ [last] at lexed
  have passed : run [] (Token.lex source) = body.foldlM accept [] >>= finish := by
    rw [run, lexed, foldlM_append_eof ends]
  have moved : (Token.lex source).foldlM advance [] = (run [] (Token.lex source)).map fun _ => [] := by
    rw [passed, lexed, List.foldlM_append, foldlM_advance_eq others]
    cases body.foldlM accept [] with
    | error error => rfl
    | ok stack =>
      change [last].foldlM advance stack = (finish stack).map fun _ => []
      simp only [List.foldlM_cons, List.foldlM_nil, advance_eof ends, bind_pure]
  rw [moved, Reader.run_lex]
  cases Datum.readAll source with
  | error error => rfl
  | ok data => rfl

end Runs

end OpenForm

open OpenForm

/-- Reading a source fails just with the error of the token at which the machine stops, and yields
forms just where the machine takes all tokens and ends with nothing open. -/
theorem Datum.readAll_iff_machine (source : String) :
    (∀ error, readAll source = .error error ↔ Stops [] (Token.lex source) error) ∧
      ((∃ data, readAll source = .ok data) ↔ TakesAll [] (Token.lex source) []) := by
  simp only [stops_iff, takesAll_iff, foldlM_advance_lex]
  cases readAll source with
  | error error => simp [Except.map]
  | ok data => simp [Except.map]

end LispCompiler
