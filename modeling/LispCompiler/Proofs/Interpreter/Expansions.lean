import Mathlib
import LispCompiler.Proofs.Datum.RoundTrip
import LispCompiler.Proofs.Interpreter.Answers
import LispCompiler.Proofs.Target.OneLine

/-!
How forms come back from an interpreter. It writes a form on one line behind the word `ok`, and the
host takes white space off the end of the line before it reads the form. Main statement: every form
that can be read comes back, except for a symbol whose name ends with white space.
-/

namespace LispCompiler

open Token Grammar

section Symbols

variable {token : Token} {source : String}

theorem Token.isWord_of_mem_lex (member : token ∈ lex source) (word : token.kind = .word) :
    IsWord token.text.toList := by
  rcases (lexFrom_tokenises 0 source.toList).located token member with ⟨behind, -, lexeme⟩
  have same := lexeme (by simp [word])
  rw [word] at same
  cases same with
  | word isWord separated => exact isWord

theorem Token.text_infix_of_mem_lex (member : token ∈ lex source) :
    token.text.toList <:+: source.toList := by
  rcases (lexFrom_tokenises 0 source.toList).located token member with
    ⟨behind, ⟨before, whole, -⟩, -⟩
  exact ⟨before, behind, by rw [whole, List.append_assoc]⟩

theorem Grammar.atom_cases {datum : Datum} (atom : Atom token datum) :
    datum.symbols = [] ∨ datum = .symbol token.text ∧ token.kind = .word ∧
      Datum.literal? token.text = none ∧ Numeral.ofText? token.text.toList = none := by
  cases atom with
  | string => exact .inl rfl
  | literal _ known =>
    left
    unfold Datum.literal? at known
    split at known <;> cases known <;> rfl
  | number _ _ _ inRange =>
    left
    unfold Numeral.value? at inRange
    split at inRange
    all_goals
      rcases Option.map_eq_some_iff.mp inRange with ⟨value, -, rfl⟩
      rfl
  | symbol word unknown unwritten => exact .inr ⟨rfl, word, unknown, unwritten⟩

theorem Grammar.atom_symbols {datum : Datum} (atom : Atom token datum)
    (words : token.kind = .word → IsWord token.text.toList) :
    ∀ name ∈ datum.symbols, Datum.IsSymbolName name := by
  rcases atom_cases atom with none | ⟨rfl, word, unknown, unwritten⟩
  · simp [none]
  · rw [Datum.symbols, List.forall_mem_singleton]
    exact ⟨words word, unknown, unwritten⟩

theorem Marker.symbol_isSymbolName (marker : Marker) : Datum.IsSymbolName marker.symbol := by
  cases marker <;>
    exact ⟨isWord_of_all (by decide) (by decide) (by decide), by decide, by decide⟩

mutual

theorem Grammar.form_symbols {level : Nat} : ∀ {tokens : List Token} {datum : Datum},
    Form level tokens datum → (∀ token ∈ tokens, token.kind = .word → IsWord token.text.toList) →
    ∀ name ∈ datum.symbols, Datum.IsSymbolName name
  | _, _, .atom single, words => atom_symbols single (words _ (List.mem_singleton_self _))
  | _, _, .list _ _ _ between, words =>
    forms_symbols between fun token member => words token (by simp [member])
  | _, _, .marked _ _ _ behind, words => by
    have operand := form_symbols behind fun token member => words token (by simp [member])
    simp only [Datum.marked, Datum.symbols, Datum.symbolsList, List.append_nil,
      List.forall_mem_append, List.forall_mem_singleton]
    exact ⟨Marker.symbol_isSymbolName _, operand⟩

theorem Grammar.forms_symbols {level : Nat} : ∀ {tokens : List Token} {data : List Datum},
    Forms level tokens data → (∀ token ∈ tokens, token.kind = .word → IsWord token.text.toList) →
    ∀ name ∈ Datum.symbolsList data, Datum.IsSymbolName name
  | _, _, .nil, _ => by simp [Datum.symbolsList]
  | _, _, .comment _ others, words =>
    forms_symbols others fun token member => words token (List.mem_cons_of_mem _ member)
  | _, _, .form one others, words => by
    rw [List.forall_mem_append] at words
    simp only [Datum.symbolsList, List.forall_mem_append]
    exact ⟨form_symbols one words.1, forms_symbols others words.2⟩

end

variable {form : Datum}

theorem Datum.symbols_of_readFirst (read : readFirst source = .ok (some form)) :
    ∀ name ∈ form.symbols, IsSymbolName name := by
  rcases Reader.readFirst_sound read with ⟨tokens, rest, lexed, one⟩
  refine form_symbols one fun token member => ?_
  have whole : token ∈ lex source := lexed ▸ List.mem_append_left rest member
  exact isWord_of_mem_lex whole

theorem Datum.height_of_readFirst (read : readFirst source = .ok (some form)) :
    form.height ≤ maxNesting := by
  rcases Reader.readFirst_sound read with ⟨tokens, rest, lexed, one⟩
  have within := form_height (Nat.zero_le _) one
  omega

/-- A symbol that is read stands in the source. -/
theorem Datum.name_infix_of_readFirst {name : String}
    (read : readFirst source = .ok (some (.symbol name))) : name.toList <:+: source.toList := by
  rcases Reader.readFirst_sound read with ⟨tokens, rest, lexed, one⟩
  generalize same : Datum.symbol name = datum at one
  cases one with
  | @atom _ token _ single =>
    have member : token ∈ lex source := by simp [lexed]
    rcases atom_cases single with none | ⟨read, -⟩
    · simp [← same, symbols] at none
    · cases same.trans read
      exact text_infix_of_mem_lex member
  | list => cases same
  | marked => cases same

end Symbols

def Datum.endsInSpace : Datum → Bool
  | symbol name => name.toList.getLast?.any Whitespace.isWhitespace
  | _ => false

namespace Interpreter

mutual

/-- A form as interpreters write it: as it is printed, but with no quote mark before a list. -/
def formText : Datum → String
  | .list items => "(" ++ " ".intercalate (formTexts items) ++ ")"
  | atom => atom.print

def formTexts : List Datum → List String
  | [] => []
  | item :: items => formText item :: formTexts items

end

def replyText (form : Datum) : String :=
  "ok " ++ formText form

theorem formTexts_eq_map (items : List Datum) : formTexts items = items.map formText := by
  induction items with
  | nil => rfl
  | cons item items ih => rw [formTexts, ih, List.map_cons]

theorem lexesAs_formText {level : Nat} (form : Datum) (floatFree : form.floatFree)
    (readable : ∀ name ∈ form.symbols, Datum.IsSymbolName name)
    (shallow : level + form.height ≤ maxNesting) :
    LexesAs (formText form).toList (Form level · form) := by
  cases form with
  | list items =>
    rw [Datum.height] at shallow
    have each : LexEachAs (level + 1) (items.map formText) (items.map id) := by
      refine lexEachAs_map fun item member => ?_
      have lower := Datum.height_le_of_mem member
      exact lexesAs_formText item (Datum.floatFree_of_mem floatFree member)
        (fun name named => readable name (Datum.symbols_of_mem member named)) (by omega)
    have whole := lexesAs_parens (by omega) (lexesAs_spaced each)
    simpa [formText, formTexts_eq_map] using whole
  | _ => exact lexesAs_print _ floatFree readable shallow

section Lines

theorem unbroken_of_isWord {word : List Char} (isWord : IsWord word) : '\n' ∉ word :=
  fun member => absurd (isWord.continued '\n' member) (by decide)

theorem unbroken_spaced {texts : List String} (each : ∀ text ∈ texts, '\n' ∉ text.toList) :
    '\n' ∉ (" ".intercalate texts).toList := by
  induction texts with
  | nil => simp
  | cons text texts ih =>
    rw [List.forall_mem_cons] at each
    cases texts with
    | nil => simpa using each.1
    | cons next texts =>
      rw [String.intercalate_cons_cons]
      simpa [each.1] using ih each.2

theorem unbroken_formText (form : Datum) (floatFree : form.floatFree)
    (readable : ∀ name ∈ form.symbols, Datum.IsSymbolName name) :
    '\n' ∉ (formText form).toList := by
  cases form with
  | integer value => exact unbroken_of_isWord (Datum.isWord_integer value.toInt)
  | float value => simp [Datum.floatFree] at floatFree
  | string text =>
    intro member
    exact absurd (OneLine.iff_forall.mp (.quote text) '\n' member) (by decide)
  | bool value => cases value <;> decide
  | nil => decide
  | symbol name => exact unbroken_of_isWord (readable name (by simp [Datum.symbols])).word
  | list items =>
    have each : ∀ text ∈ items.map formText, '\n' ∉ text.toList := by
      refine List.forall_mem_map.mpr fun item member => ?_
      exact unbroken_formText item (Datum.floatFree_of_mem floatFree member)
        fun name named => readable name (Datum.symbols_of_mem member named)
    have inside := unbroken_spaced each
    simpa [formText, formTexts_eq_map] using inside

/-- All that is written ends with a visible character, except for the symbols that end in space. -/
theorem exists_last_formText (form : Datum) (floatFree : form.floatFree)
    (readable : ∀ name ∈ form.symbols, Datum.IsSymbolName name) :
    ∃ front last, (formText form).toList = front ++ [last] ∧
      Whitespace.isWhitespace last = form.endsInSpace := by
  cases form with
  | integer value =>
    have digits := Numeral.toDigits_isDigit value.toInt.natAbs
    rcases (List.eq_nil_or_concat _).resolve_left Nat.toDigits_ne_nil with ⟨front, last, split⟩
    rw [List.concat_eq_append] at split
    rw [split, List.forall_mem_append, List.forall_mem_singleton] at digits
    refine ⟨(if value.toInt < 0 then ['-'] else []) ++ front, last, ?_, visible_of_isAlphanum ?_⟩
    · change (toString value.toInt).toList = _
      rw [Numeral.toList_toString, split, List.append_assoc]
    · exact Bool.or_eq_true_iff.mpr (.inr digits.2)
  | float value => simp [Datum.floatFree] at floatFree
  | string text =>
    exact ⟨'"' :: Quoted.encode text.toList, '"', by simp [formText, Datum.print, Quoted.quote], rfl⟩
  | bool value =>
    cases value with
    | false => exact ⟨"fals".toList, 'e', rfl, rfl⟩
    | true => exact ⟨"tru".toList, 'e', rfl, rfl⟩
  | nil => exact ⟨"ni".toList, 'l', rfl, rfl⟩
  | symbol name =>
    have nonempty := (readable name (by simp [Datum.symbols])).word.nonempty
    refine ⟨_, _, (List.dropLast_concat_getLast nonempty).symm, ?_⟩
    simp [Datum.endsInSpace, List.getLast?_eq_some_getLast nonempty]
  | list items =>
    exact ⟨'(' :: (" ".intercalate (formTexts items)).toList, ')', by simp [formText], rfl⟩

end Lines

section Replies

variable {source : String} {form : Datum}

theorem toList_replyText (form : Datum) :
    (replyText form).toList = 'o' :: 'k' :: ' ' :: (formText form).toList := by
  simp [replyText]

theorem isWhitespace_lineBreak : Whitespace.isWhitespace '\n' :=
  rfl

theorem readFirst_formText (read : Datum.readFirst source = .ok (some form))
    (floatFree : form.floatFree) : Datum.readFirst (formText form) = .ok (some form) := by
  have shallow : 0 + form.height ≤ maxNesting := by
    have within := Datum.height_of_readFirst read
    omega
  obtain ⟨tokens, after, lexed, one⟩ :=
    lexesAs_formText form floatFree (Datum.symbols_of_readFirst read) shallow 0 [] (by simp [Separated])
  rw [List.append_nil] at lexed
  exact Reader.readFirst_complete lexed one

theorem heard_replyText (read : Datum.readFirst source = .ok (some form))
    (floatFree : form.floatFree) (kept : form.endsInSpace = false) :
    heard (Bytes.ofText (replyText form) ++ [Bytes.newline]) = .ok (some form) := by
  obtain ⟨front, last, ends, visible⟩ :=
    exists_last_formText form floatFree (Datum.symbols_of_readFirst read)
  have shown : Shows (Bytes.ofText (replyText form) ++ [Bytes.newline]) (replyText form) := by
    have whole : (replyText form).toList = 'o' :: 'k' :: ' ' :: front ++ [last] := by
      rw [toList_replyText, ends]
      rfl
    rw [← Bytes.ofText_line]
    refine .intro ?_ (by simpa using isWhitespace_lineBreak)
    rw [whole, List.getLast?_concat]
    rintro _ ⟨⟩
    exact visible.trans kept
  exact heard_eq_iff.mpr (.accepted shown (.inr rfl) (reads_iff.mpr (readFirst_formText read floatFree)))

/-- The white space at the end of a line does not get into what it shows. -/
theorem Shows.isPrefix {text blanks line : String} (space : ∀ c ∈ blanks.toList, Whitespace.isWhitespace c)
    (shown : Shows (Bytes.ofText (text ++ blanks)) line) : line.toList <+: text.toList := by
  generalize same : Bytes.ofText (text ++ blanks) = bytes at shown
  cases shown with
  | @intro _ others visible otherSpace =>
    have whole : text ++ blanks = line ++ others := Bytes.ofText_injective same
    have trimmed : line.toList = Whitespace.trimEnd text.toList := calc
      line.toList = Whitespace.trimEnd line.toList := (Whitespace.trimEnd_eq_self visible).symm
      _ = Whitespace.trimEnd (line ++ others).toList := by
        rw [String.toList_append, Whitespace.trimEnd_append otherSpace]
      _ = Whitespace.trimEnd text.toList := by
        rw [← whole, String.toList_append, Whitespace.trimEnd_append space]
    rw [trimmed]
    exact List.rdropWhile_prefix _ _

/-- A symbol that loses its end is not read again, since what is left of it is too short. -/
theorem heard_replyText_ne {name : String} (space : (Datum.symbol name).endsInSpace) :
    heard (Bytes.ofText (replyText (.symbol name)) ++ [Bytes.newline]) ≠ .ok (some (.symbol name)) := by
  intro comes
  rcases (Option.any_eq_true ..).mp space with ⟨last, ends, isSpace⟩
  rcases List.getLast?_eq_some_iff.mp ends with ⟨front, split⟩
  have whole : replyText (.symbol name) ++ "\n" = ("ok " ++ .ofList front) ++ .ofList [last, '\n'] := by
    apply String.toList_inj.mp
    rw [String.toList_append, toList_replyText]
    change 'o' :: 'k' :: ' ' :: name.toList ++ _ = _
    simp [split]
  rw [← Bytes.ofText_line, whole] at comes
  cases heard_eq_iff.mp comes with
  | @accepted line payload _ shown bears reads =>
    have cut := (shown.isPrefix (by simp [isSpace, isWhitespace_lineBreak])).length_le
    have part := (Datum.name_infix_of_readFirst (reads_iff.mp reads)).length_le
    simp only [split, List.length_append, List.length_singleton] at part
    rcases bears with ⟨rfl, rfl⟩ | rfl
    · simp at part
    · simp at cut
      omega

end Replies

def answering (form : Datum) (turns : List Turn) : Peer :=
  ⟨.answer (Bytes.ofText (replyText form)) :: turns, [], true⟩

theorem respond_answering {form : Datum} (unbroken : '\n' ∉ (replyText form).toList) (turns : List Turn) :
    (answering form turns).respond =
      (Bytes.ofText (replyText form) ++ [Bytes.newline], ⟨turns, [], true⟩) := by
  have split := @Bytes.splitLine_line _ [] (Bytes.newline_notMem_ofText unbroken)
  simp only [Peer.respond, answering, Peer.turn, Peer.readLine, List.nil_append, split]

/-- A request whose reply brings a form that can be read gets this form, and the exchange is over,
if and only if the form is not a symbol that ends in white space. -/
theorem request_answering_iff {source : String} {form : Datum}
    (read : Datum.readFirst source = .ok (some form)) (floatFree : form.floatFree)
    (command : Command) (name code : String) (turns : List Turn) (events : List Event) :
    request command name code ⟨answering form turns, events⟩ =
        .ok (some form)
          ⟨⟨turns, [], true⟩, events ++ [.request (requestLine command.name name code)]⟩ ↔
      form.endsInSpace = false := by
  have unbroken : '\n' ∉ (replyText form).toList := by
    rw [toList_replyText]
    simpa using unbroken_formText form floatFree (Datum.symbols_of_readFirst read)
  rw [request_listening rfl, respond_answering unbroken]
  constructor
  · intro comes
    have heardForm := congrArg outcome comes
    rw [outcome_settled] at heardForm
    cases form with
    | symbol name =>
      apply Bool.eq_false_iff.mpr
      exact fun space => heard_replyText_ne space heardForm
    | _ => rfl
  · intro kept
    rw [heard_replyText read floatFree kept]
    rfl

/-- Only the end of the line is trimmed, so the symbol inside the list keeps its last character. -/
theorem request_answering_list :
    request .expand "swap" "[]"
        ⟨answering (.list [.marked "quote" (.symbol "a\u00a0"), .string "\n", .list [.nil]]) [], []⟩ =
      .ok (some (.list [.marked "quote" (.symbol "a\u00a0"), .string "\n", .list [.nil]]))
        ⟨⟨[], [], true⟩, [.request (requestLine "expand" "swap" "[]")]⟩ := by
  have read : Datum.readFirst "('a\u00a0 \"\\u000a\" [nil])" =
      .ok (some (.list [.marked "quote" (.symbol "a\u00a0"), .string "\n", .list [.nil]])) := by cbv
  exact (request_answering_iff read rfl .expand "swap" "[]" [] []).mpr rfl

/-- A symbol that ends with a no-break space comes back without it. -/
theorem request_answering_noBreakSpace :
    Datum.readFirst "a\u00a0" = .ok (some (.symbol "a\u00a0")) ∧
      (Datum.symbol "a\u00a0").floatFree ∧
      request .expand "swap" "[]" ⟨answering (.symbol "a\u00a0") [], []⟩ =
        .ok (some (.symbol "a"))
          ⟨⟨[], [], true⟩, [.request (requestLine "expand" "swap" "[]")]⟩ := by
  refine ⟨by cbv, rfl, ?_⟩
  have letter : Whitespace.isWhitespace 'a' = false := rfl
  have noBreak : Whitespace.isWhitespace '\u00a0' = true := rfl
  have shown : Shows (Bytes.ofText "ok a\u00a0" ++ [Bytes.newline]) "ok a" :=
    @Shows.intro "ok a" "\u00a0\n" (by simpa using letter) (by simp [noBreak, isWhitespace_lineBreak])
  have read : Datum.readFirst "a" = .ok (some (.symbol "a")) := by cbv
  have received := heard_eq_iff.mpr (.accepted shown (.inr rfl) (reads_iff.mpr read))
  rw [request_listening rfl, respond_answering (by decide)]
  exact congrArg (settled · _) received

end Interpreter

end LispCompiler
