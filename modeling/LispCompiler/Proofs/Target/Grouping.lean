import LispCompiler.Proofs.Target.Balance

/-!
Code that reads as one operand. White space outside of all brackets and literals lets a text fall into
parts, and a call or a method behind it would apply to the last part only. Main statements: names,
literals and what stands in brackets have no such white space, and neither has a call or a message
if its callee or receiver has none.
-/

namespace LispCompiler

open Whitespace (isWhitespace)

theorem visible_of_isSimple {c : Char} (simple : isSimple c) : isWhitespace c = false := by
  rcases Bool.or_eq_true_iff.mp simple with alphanumeric | mark
  · exact visible_of_isAlphanum alphanumeric
  · have marks : ['_', '.', '-', '?', '!', '=', '$'].all (!isWhitespace ·) := by decide
    simpa using List.all_eq_true.mp marks c (List.contains_iff_mem.mp mark)

namespace Nesting

/-- No white space outside of all brackets and literals: where the text in front of it has been scanned,
the scan is not back where it started. -/
def Tight (text : String) : Prop :=
  ∀ front c rest, text.toList = front ++ c :: rest → isWhitespace c → scan front .start ≠ some .start

def tightFrom : Scan → List Char → Bool
  | _, [] => true
  | start, c :: text => !(start == .start && isWhitespace c) && (next start c).all (tightFrom · text)

variable {start : Scan} {text : List Char} {closers : List Char}

theorem tightFrom_cons {c : Char} : tightFrom start (c :: text) ↔
    (start = .start → isWhitespace c = false) ∧ ∀ later, next start c = some later → tightFrom later text := by
  simp only [tightFrom, Bool.and_eq_true, Option.all_eq_true, Bool.not_eq_true', Bool.and_eq_false_imp,
    beq_iff_eq]

theorem tightFrom_iff : tightFrom start text ↔ ∀ front c rest, text = front ++ c :: rest →
    isWhitespace c → scan front start ≠ some .start := by
  induction text generalizing start with
  | nil => simp [tightFrom]
  | cons first text ih =>
    rw [tightFrom_cons]
    constructor
    · intro tight front c rest split space
      cases front with
      | nil =>
        cases split
        intro same
        cases same
        simp [tight.1 rfl] at space
      | cons _ front =>
        cases split
        rw [scan_cons]
        cases stepped : next start first with
        | none => simp
        | some later => exact ih.mp (tight.2 later stepped) front c rest rfl space
    · intro tight
      constructor
      · intro same
        by_contra space
        exact tight [] first text rfl (by simpa using space) (congrArg some same)
      · intro later stepped
        refine ih.mpr fun front c rest split space => ?_
        have behind := tight (first :: front) c rest (by rw [split, List.cons_append]) space
        rwa [scan_cons, stepped, Option.bind_some] at behind

theorem tight_iff (text : String) : Tight text ↔ tightFrom .start text.toList :=
  tightFrom_iff.symm

instance (text : String) : Decidable (Tight text) :=
  decidable_of_iff _ (tight_iff text).symm

theorem tightFrom_append {more : List Char} : tightFrom start (text ++ more) ↔
    tightFrom start text ∧ ∀ later, scan text start = some later → tightFrom later more := by
  induction text generalizing start with
  | nil => simp [tightFrom]
  | cons c text ih =>
    rw [List.cons_append, tightFrom_cons, tightFrom_cons, scan_cons]
    cases next start c with
    | none => simp
    | some later => simp [ih, and_assoc]

theorem tightFrom_visible (visible : ∀ c ∈ text, isWhitespace c = false) : tightFrom start text := by
  induction text generalizing start with
  | nil => rfl
  | cons c text ih =>
    rw [List.forall_mem_cons] at visible
    exact tightFrom_cons.mpr ⟨fun _ => visible.1, fun later _ => ih visible.2⟩

def Scan.within (outer : List Char) (scan : Scan) : Scan :=
  { scan with closers := scan.closers ++ outer }

theorem close_within {c : Char} {later : Scan} (closed : close c closers = some later) (outer : List Char) :
    close c (closers ++ outer) = some (later.within outer) := by
  cases closers with
  | nil => cases closed
  | cons expected closers =>
    simp only [close] at closed
    split at closed
    · next same =>
      cases closed
      exact if_pos same
    · cases closed

/-- A step does not look at the brackets around those that it needs. -/
theorem next_within {c : Char} {later : Scan} (stepped : next start c = some later) (outer : List Char) :
    next (start.within outer) c = some (later.within outer) := by
  rcases start with ⟨mode, closers⟩
  cases mode with
  | escaped =>
    cases stepped
    rfl
  | literal =>
    simp only [next, Scan.within] at stepped ⊢
    split at stepped
    · next quote =>
      cases stepped
      exact if_pos quote
    · next noQuote =>
      rw [if_neg noQuote]
      split at stepped
      · next backslash =>
        cases stepped
        exact if_pos backslash
      · next noBackslash =>
        cases stepped
        exact if_neg noBackslash
  | code =>
    simp only [next, Scan.within] at stepped ⊢
    split at stepped
    · next quote =>
      cases stepped
      exact if_pos quote
    · next noQuote =>
      rw [if_neg noQuote]
      cases opened : closer? c with
      | some closer =>
        rw [opened] at stepped
        cases stepped
        rfl
      | none =>
        simp only [opened] at stepped ⊢
        split at stepped
        · next isCloser =>
          rw [if_pos isCloser]
          exact close_within stepped outer
        · next noCloser =>
          cases stepped
          exact if_neg noCloser

/-- Inside a bracket, white space does no harm. -/
theorem tightFrom_within {later : Scan} (scanned : scan text start = some later) (closer : Char)
    (outer : List Char) : tightFrom (start.within (closer :: outer)) text := by
  induction text generalizing start with
  | nil => rfl
  | cons c text ih =>
    rw [scan_cons] at scanned
    rcases Option.bind_eq_some_iff.mp scanned with ⟨middle, stepped, rest⟩
    refine tightFrom_cons.mpr ⟨?_, ?_⟩
    · intro same
      simp [Scan.within, Scan.start] at same
    · intro other further
      rw [next_within stepped] at further
      cases further
      exact ih rest

structure Grouping (text : String) (before after : List Char) : Prop where
  shifts : Shifts text before after
  tight : tightFrom ⟨.code, before⟩ text.toList

abbrev Grouped (text : String) : Prop :=
  Grouping text [] []

theorem Grouping.append {first second : String} {before between after : List Char}
    (left : Grouping first before between) (right : Grouping second between after) :
    Grouping (first ++ second) before after := by
  refine ⟨left.shifts.append right.shifts, ?_⟩
  rw [String.toList_append]
  refine tightFrom_append.mpr ⟨left.tight, fun later scanned => ?_⟩
  have reached := left.shifts []
  rw [List.append_nil, List.append_nil, scanned] at reached
  cases reached
  exact right.tight

theorem Grouping.isTight {text : String} (grouped : Grouped text) : Tight text :=
  (tight_iff text).mpr grouped.tight

theorem Shifts.inside {text : String} (neutral : Neutral text) (closer : Char) (outer : List Char) :
    Grouping text (closer :: outer) (closer :: outer) :=
  ⟨neutral.under _, tightFrom_within (neutral []) closer outer⟩

theorem grouped_of_visible {text : String} (neutral : Neutral text)
    (visible : ∀ c ∈ text.toList, isWhitespace c = false) : Grouped text :=
  ⟨neutral, tightFrom_visible visible⟩

theorem grouped_of_simple {text : String} (simple : ∀ c ∈ text.toList, isSimple c) : Grouped text :=
  grouped_of_visible (neutral_of_simple simple) fun c member => visible_of_isSimple (simple c member)

theorem grouped_nil (target : Target) : Grouped target.nil := by
  cases target with
  | ruby => exact ⟨fun _ => rfl, by decide⟩
  | javascript => exact ⟨fun _ => rfl, by decide⟩

theorem grouped_bool (value : Bool) : Grouped (Target.bool value) := by
  cases value with
  | true => exact ⟨fun _ => rfl, by decide⟩
  | false => exact ⟨fun _ => rfl, by decide⟩

section Literal

theorem tightFrom_escapeHash (text : List Char) (start : Scan) :
    tightFrom start (text.flatMap Ruby.escapeHash) ↔ tightFrom start text := by
  induction text generalizing start with
  | nil => rfl
  | cons c text ih =>
    have own : tightFrom start (Ruby.escapeHash c) ↔ (start = .start → isWhitespace c = false) := by
      unfold Ruby.escapeHash
      split
      · next hash =>
        obtain rfl := beq_iff_eq.mp hash
        have visible : ∀ c ∈ ['\\', '#'], isWhitespace c = false :=
          List.forall_mem_cons.mpr ⟨by decide, List.forall_mem_singleton.mpr (by decide)⟩
        exact iff_of_true (tightFrom_visible visible) fun _ => by decide
      · rw [tightFrom_cons]
        simp [tightFrom]
    rw [List.flatMap_cons, tightFrom_append, scan_escapeHash, tightFrom_cons, own]
    simp only [ih]

theorem tightFrom_escaped {c : Char} {written : List Char} (escaped : Quoted.Escaped c written) :
    tightFrom ⟨.literal, closers⟩ written := by
  cases escaped with
  | short means => simp [tightFrom, next, Scan.start]
  | unit small =>
    have high := Quoted.digitChar_ne_mark (show c.toNat / 16 < 16 by omega)
    simp [tightFrom, next, Scan.start, high]
  | raw => simp [tightFrom, Scan.start]

theorem tightFrom_encode (text : List Char) : tightFrom ⟨.literal, closers⟩ (Quoted.encode text) := by
  induction text with
  | nil => rfl
  | cons c text ih =>
    have escaped := Quoted.escapeChar_escaped c
    rw [Quoted.encode_cons, tightFrom_append, scan_escaped escaped]
    refine ⟨tightFrom_escaped escaped, fun later same => ?_⟩
    cases same
    exact ih

theorem grouped_quote (text : String) : Grouped (Quoted.quote text) := by
  refine ⟨neutral_quote text, ?_⟩
  have closing : tightFrom ⟨.literal, []⟩ ['"'] := by decide
  have body : tightFrom ⟨.literal, []⟩ (Quoted.encode text.toList ++ ['"']) := by
    refine tightFrom_append.mpr ⟨tightFrom_encode _, fun later scanned => ?_⟩
    rw [scan_encode] at scanned
    cases scanned
    exact closing
  rw [Quoted.toList_quote]
  refine tightFrom_cons.mpr ⟨fun _ => by decide, fun later stepped => ?_⟩
  cases stepped
  exact body

theorem grouped_string (target : Target) (text : String) : Grouped (target.string text) := by
  cases target with
  | ruby =>
    refine ⟨neutral_string .ruby text, ?_⟩
    simp only [Target.string, Ruby.string, String.toList_ofList]
    exact (tightFrom_escapeHash _ _).mpr (grouped_quote text).tight
  | javascript => exact grouped_quote text

end Literal

section Construct

variable (target : Target) {a b f : String} {as : List String}

theorem grouping_openParen : Grouping "(" [] [')'] :=
  ⟨openParen, by decide⟩

theorem grouping_closeParen : Grouping ")" [')'] [] :=
  ⟨closeParen, by decide⟩

theorem grouped_parens (inner : Neutral a) : Grouped ("(" ++ a ++ ")") :=
  grouping_openParen |>.append (inner.inside _ _) |>.append grouping_closeParen

theorem grouped_call (function : Grouped f) (args : ∀ a ∈ as, Neutral a) : Grouped (target.call f as) := by
  have inside := (neutral_commaList args).inside ')' []
  cases target with
  | ruby =>
    have opening : Grouping ".(" [] [')'] := ⟨fun _ => rfl, by decide⟩
    exact function |>.append opening |>.append inside |>.append grouping_closeParen
  | javascript =>
    exact function |>.append grouping_openParen |>.append inside |>.append grouping_closeParen

theorem grouped_apply (function : Grouped f) (list : Neutral a) : Grouped (target.apply f a) := by
  cases target with
  | ruby =>
    have opening : Grouping ".(*" [] [')'] := ⟨fun _ => rfl, by decide⟩
    exact function |>.append opening |>.append (list.inside _ _) |>.append grouping_closeParen
  | javascript =>
    have opening : Grouping "(..." [] [')'] := ⟨fun _ => rfl, by decide⟩
    exact function |>.append opening |>.append (list.inside _ _) |>.append grouping_closeParen

theorem grouped_sequence (exprs : ∀ a ∈ as, Neutral a) : Grouped (target.sequence as) := by
  cases target with
  | ruby =>
    have separator : Neutral "; " := fun _ => rfl
    exact grouped_parens (separator.intercalate exprs)
  | javascript =>
    simp only [Target.sequence, JavaScript.sequence]
    split
    · exact ⟨fun _ => rfl, by decide⟩
    · exact grouped_parens (neutral_commaList exprs)

theorem grouped_dynamicSend (receiver : Grouped a) (message : Neutral b) (args : ∀ a ∈ as, Neutral a) :
    Grouped (target.dynamicSend a b as) := by
  cases target with
  | ruby =>
    have inside := neutral_commaList (List.forall_mem_cons.mpr ⟨message, args⟩)
    have opening : Grouping ".public_send(" [] [')'] := ⟨fun _ => rfl, by decide⟩
    exact receiver |>.append opening |>.append (inside.inside _ _) |>.append grouping_closeParen
  | javascript =>
    have opening : Grouping "[" [] [']'] := ⟨fun _ => rfl, by decide⟩
    have between : Grouping "](" [']'] [')'] := ⟨fun _ => rfl, by decide⟩
    exact receiver |>.append opening |>.append (message.inside _ _) |>.append between
      |>.append ((neutral_commaList args).inside _ _) |>.append grouping_closeParen

theorem grouped_method {method : String} (receiver : Grouped a)
    (isMethod : ∀ c ∈ method.toList, isSimple c) (args : ∀ a ∈ as, Neutral a) :
    Grouped (a ++ "." ++ method ++ "(" ++ commaList as ++ ")") := by
  have dot : Grouped "." := ⟨fun _ => rfl, by decide⟩
  exact receiver |>.append dot |>.append (grouped_of_simple isMethod) |>.append grouping_openParen
    |>.append ((neutral_commaList args).inside _ _) |>.append grouping_closeParen

theorem grouped_send (receiver : Grouped a) (method : String) (args : ∀ a ∈ as, Neutral a) :
    Grouped (target.send a method as) := by
  have dynamic := grouped_dynamicSend target receiver (neutral_string target method) args
  cases target with
  | ruby =>
    simp only [Target.send, Ruby.send]
    split
    · next name => exact grouped_method receiver (isMethodName_simple name) args
    · exact dynamic
  | javascript =>
    simp only [Target.send, JavaScript.send]
    split
    · next name => exact grouped_method receiver (isName_simple name) args
    · exact dynamic

end Construct

end Nesting

end LispCompiler
