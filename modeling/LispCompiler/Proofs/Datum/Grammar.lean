import LispCompiler.Datum.Reader

/-!
The grammar of forms, and what one step of the reader takes of it. A program is a sequence of forms
with comments among them; lists and quote marks stand below fewer than `maxNesting` others.
-/

namespace LispCompiler

namespace Grammar

inductive Atom : Token → Datum → Prop
  | string {token : Token} {text : String}
      (quoted : token.kind = .plainString ∨ token.kind = .escapedString)
      (decoded : token.stringText = .ok text) : Atom token (.string text)
  | literal {token : Token} {datum : Datum} (word : token.kind = .word)
      (known : Datum.literal? token.text = some datum) : Atom token datum
  | number {token : Token} {numeral : Numeral} {datum : Datum} (word : token.kind = .word)
      (unknown : Datum.literal? token.text = none)
      (written : Numeral.ofText? token.text.toList = some numeral)
      (inRange : numeral.value? = some datum) : Atom token datum
  | symbol {token : Token} (word : token.kind = .word)
      (unknown : Datum.literal? token.text = none)
      (unwritten : Numeral.ofText? token.text.toList = none) : Atom token (.symbol token.text)

def Comments (tokens : List Token) : Prop :=
  ∀ token ∈ tokens, token.kind = .comment

mutual

/-- The tokens of one form that stands below `level` lists and quote marks. -/
inductive Form : Nat → List Token → Datum → Prop
  | atom {level : Nat} {token : Token} {datum : Datum} (single : Atom token datum) :
      Form level [token] datum
  | list {level : Nat} {first last : Token} {delimiter : Delimiter} {inner : List Token}
      {items : List Datum} (opens : first.kind = .opener delimiter)
      (closes : last.kind = .closer delimiter) (shallow : level < maxNesting)
      (between : Forms (level + 1) inner items) :
      Form level (first :: (inner ++ [last])) (.list items)
  | marked {level : Nat} {first : Token} {marker : Marker} {comments inner : List Token}
      {operand : Datum} (marks : first.kind = .marker marker) (shallow : level < maxNesting)
      (skipped : Comments comments) (behind : Form (level + 1) inner operand) :
      Form level (first :: (comments ++ inner)) (.marked marker.symbol operand)

inductive Forms : Nat → List Token → List Datum → Prop
  | nil {level : Nat} : Forms level [] []
  | comment {level : Nat} {token : Token} {tokens : List Token} {data : List Datum}
      (skipped : token.kind = .comment) (others : Forms level tokens data) :
      Forms level (token :: tokens) data
  | form {level : Nat} {first tokens : List Token} {datum : Datum} {data : List Datum}
      (one : Form level first datum) (others : Forms level tokens data) :
      Forms level (first ++ tokens) (datum :: data)

end

def Program (tokens : List Token) (data : List Datum) : Prop :=
  Forms 0 tokens data

/-- What stands first among the tokens of a source, which is a form, a comment or the end. -/
inductive First : List Token → Option Datum → Prop
  | form {first rest : List Token} {datum : Datum} (one : Form 0 first datum) :
      First (first ++ rest) (some datum)
  | nothing {token : Token} {rest : List Token} (skipped : token.kind = .comment ∨ token.kind = .eof) :
      First (token :: rest) none

theorem atom_word_iff {token : Token} (word : token.kind = .word) (datum : Datum) :
    Atom token datum ↔ Datum.ofWord? token.text = some datum := by
  constructor
  · intro atom
    cases atom with
    | string quoted => simp [word] at quoted
    | literal _ known => simp [Datum.ofWord?, known]
    | number _ unknown written inRange => simp [Datum.ofWord?, unknown, written, inRange]
    | symbol _ unknown unwritten => simp [Datum.ofWord?, unknown, unwritten]
  · intro denoted
    unfold Datum.ofWord? at denoted
    split at denoted
    · next known => exact .literal word (known.trans denoted)
    · next unknown =>
      split at denoted
      · next written => exact .number word unknown written denoted
      · next unwritten =>
        obtain rfl : Datum.symbol token.text = datum := by simpa using denoted
        exact .symbol word unknown unwritten

theorem atom_string_iff {token : Token}
    (quoted : token.kind = .plainString ∨ token.kind = .escapedString) (datum : Datum) :
    Atom token datum ↔ ∃ text, token.stringText = .ok text ∧ datum = .string text := by
  have noWord : token.kind ≠ .word := by rcases quoted with kind | kind <;> simp [kind]
  constructor
  · intro atom
    cases atom with
    | string _ decoded => exact ⟨_, decoded, rfl⟩
    | literal word => exact absurd word noWord
    | number word => exact absurd word noWord
    | symbol word => exact absurd word noWord
  · rintro ⟨text, decoded, rfl⟩
    exact .string quoted decoded

theorem atom_kind {token : Token} {datum : Datum} (atom : Atom token datum) :
    token.kind = .plainString ∨ token.kind = .escapedString ∨ token.kind = .word := by
  cases atom with
  | string quoted => exact quoted.imp_right .inl
  | literal word => exact .inr (.inr word)
  | number word => exact .inr (.inr word)
  | symbol word => exact .inr (.inr word)

theorem form_head {level : Nat} {tokens : List Token} {datum : Datum}
    (form : Form level tokens datum) :
    ∃ first rest, tokens = first :: rest ∧ first.kind ≠ .eof ∧
      ∀ delimiter, first.kind ≠ .closer delimiter := by
  cases form with
  | atom single =>
    refine ⟨_, [], rfl, ?_⟩
    rcases atom_kind single with kind | kind | kind <;> simp [kind]
  | list opens => exact ⟨_, _, rfl, by simp [opens]⟩
  | marked marks => exact ⟨_, _, rfl, by simp [marks]⟩

/-- Induction along a sequence of forms, where the forms themselves are not looked into. -/
theorem forms_induction {level : Nat}
    {motive : (tokens : List Token) → (data : List Datum) → Forms level tokens data → Prop}
    (nil : motive [] [] .nil)
    (comment : ∀ {token tokens data} (skipped : token.kind = .comment)
      (others : Forms level tokens data), motive tokens data others →
      motive (token :: tokens) data (.comment skipped others))
    (form : ∀ {first tokens datum data} (one : Form level first datum)
      (others : Forms level tokens data), motive tokens data others →
      motive (first ++ tokens) (datum :: data) (.form one others)) :
    ∀ {tokens data} (forms : Forms level tokens data), motive tokens data forms
  | _, _, .nil => nil
  | _, _, .comment skipped others => comment skipped others (forms_induction nil comment form others)
  | _, _, .form one others => form one others (forms_induction nil comment form others)

mutual

theorem form_ne_eof {level : Nat} : ∀ {tokens : List Token} {datum : Datum},
    Form level tokens datum → ∀ token ∈ tokens, token.kind ≠ .eof
  | _, _, .atom single => by
    rcases atom_kind single with kind | kind | kind <;> simp [kind]
  | _, _, .list opens closes _ between => by
    have others := forms_ne_eof between
    simp only [List.mem_cons, List.mem_append, List.not_mem_nil, or_false]
    rintro token (rfl | member | rfl)
    · simp [opens]
    · exact others token member
    · simp [closes]
  | _, _, .marked marks _ skipped behind => by
    have others := form_ne_eof behind
    simp only [List.mem_cons, List.mem_append]
    rintro token (rfl | member | member)
    · simp [marks]
    · simp [skipped token member]
    · exact others token member

theorem forms_ne_eof {level : Nat} : ∀ {tokens : List Token} {data : List Datum},
    Forms level tokens data → ∀ token ∈ tokens, token.kind ≠ .eof
  | _, _, .nil => nofun
  | _, _, .comment skipped others =>
    List.forall_mem_cons.mpr ⟨by simp [skipped], forms_ne_eof others⟩
  | _, _, .form one others =>
    List.forall_mem_append.mpr ⟨form_ne_eof one, forms_ne_eof others⟩

end

end Grammar

end LispCompiler
