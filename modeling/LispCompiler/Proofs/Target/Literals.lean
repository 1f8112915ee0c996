import LispCompiler.Interpreter.Host
import LispCompiler.Proofs.Datum.RoundTrip
import LispCompiler.Proofs.Target.SimpleText
import LispCompiler.Proofs.Token.Lexeme

/-!
Quoted data in emitted code. A literal ends by itself, or where no name or number goes on, so that it
is known from any text that it stands in front of. Main statement: in each target, data without
floats are known from their literals, and the arguments of a macro from their text.
-/

namespace LispCompiler

/-- A text that continues no name and no number. -/
def Interrupts (text : List Char) : Prop :=
  ∀ c ∈ text.head?, isSimple c = false

section Joined

variable {first second rest others : List Char}

theorem interrupts_cons {c : Char} (other : isSimple c = false) : Interrupts (c :: rest) := by
  intro d first
  obtain rfl : c = d := by simpa using first
  exact other

theorem takeWhile_interrupted (simple : ∀ c ∈ first, isSimple c) (ends : Interrupts rest) :
    (first ++ rest).takeWhile isSimple = first := by
  rw [List.takeWhile_append_of_pos simple]
  cases rest with
  | nil => simp
  | cons c rest => simp [ends c rfl]

/-- Names and numbers are known from a text that they stand in front of. -/
theorem simple_append_inj (simple : ∀ c ∈ first, isSimple c) (also : ∀ c ∈ second, isSimple c)
    (ends : Interrupts rest) (stops : Interrupts others) (same : first ++ rest = second ++ others) :
    first = second ∧ rest = others := by
  have front : first = second := calc
    first = (first ++ rest).takeWhile isSimple := (takeWhile_interrupted simple ends).symm
    _ = (second ++ others).takeWhile isSimple := by rw [same]
    _ = second := takeWhile_interrupted also stops
  rw [front] at same
  exact ⟨front, List.append_cancel_left same⟩

theorem toList_commaList_cons_cons (first second : String) (others : List String) :
    (commaList (first :: second :: others)).toList =
      first.toList ++ ',' :: ' ' :: (commaList (second :: others)).toList := by
  rw [commaList, String.intercalate_cons_cons, String.toList_append, String.toList_append,
    List.append_assoc]
  rfl

end Joined

namespace Ruby

theorem escapeHash_hash : escapeHash '#' = ['\\', '#'] :=
  rfl

theorem escapeHash_other {c : Char} (other : c ≠ '#') : escapeHash c = [c] := by
  simp [escapeHash, other]

theorem flatMap_escapeHash_ne_hash (text rest : List Char) :
    text.flatMap escapeHash ≠ '#' :: rest := by
  cases text with
  | nil => simp
  | cons c text =>
    rw [List.flatMap_cons]
    by_cases hash : c = '#'
    · simp [hash, escapeHash_hash]
    · simp [escapeHash_other hash, hash]

/-- A backslash is one that was inserted just where a hash mark follows. -/
theorem flatMap_escapeHash_inj {text other : List Char}
    (same : text.flatMap escapeHash = other.flatMap escapeHash) : text = other := by
  induction text generalizing other with
  | nil =>
    cases other with
    | nil => rfl
    | cons d other =>
      by_cases hash : d = '#'
      · simp [hash, escapeHash_hash] at same
      · simp [escapeHash_other hash] at same
  | cons c text ih =>
    cases other with
    | nil =>
      by_cases hash : c = '#'
      · simp [hash, escapeHash_hash] at same
      · simp [escapeHash_other hash] at same
    | cons d other =>
      rw [List.flatMap_cons, List.flatMap_cons] at same
      by_cases hash : c = '#'
      · by_cases also : d = '#'
        · rw [hash, also] at same ⊢
          rw [ih (List.append_cancel_left same)]
        · rw [hash, escapeHash_hash, escapeHash_other also] at same
          exact absurd (List.cons.inj same).2.symm (flatMap_escapeHash_ne_hash other _)
      · by_cases also : d = '#'
        · rw [also, escapeHash_hash, escapeHash_other hash] at same
          exact absurd (List.cons.inj same).2 (flatMap_escapeHash_ne_hash text _)
        · rw [escapeHash_other hash, escapeHash_other also] at same
          rcases List.cons.inj same with ⟨rfl, behind⟩
          rw [ih behind]

def escapes : List (Char × Char) :=
  [('"', '"'), ('\\', '\\'), ('#', '#'), ('n', '\n'), ('r', '\r'), ('t', '\t'), ('b', '\x08'),
    ('f', '\x0c')]

inductive Written (c : Char) : List Char → Prop
  | itself (noQuote : c ≠ '"') (noBackslash : c ≠ '\\') (noHash : c ≠ '#') : Written c [c]
  | short {letter : Char} (means : escapes.lookup letter = some c) : Written c ['\\', letter]
  | unit (small : c.toNat < 128) :
      Written c ['\\', 'u', '0', '0', Nat.digitChar (c.toNat / 16), Nat.digitChar (c.toNat % 16)]

theorem digitChar_ne_hash {digit : Nat} (bound : digit < 16) : Nat.digitChar digit ≠ '#' := by
  revert digit
  decide

theorem written_escapeChar (c : Char) : Written c ((Quoted.escapeChar c).flatMap escapeHash) := by
  unfold Quoted.escapeChar
  split
  · exact .short rfl
  · exact .short rfl
  · exact .short rfl
  · exact .short rfl
  · exact .short rfl
  · exact .short rfl
  · exact .short rfl
  · next noQuote noBackslash _ _ _ _ _ =>
    split
    · next special =>
      have small : c.toNat < 128 := by
        simp only [Bool.or_eq_true, decide_eq_true_eq, beq_iff_eq] at special
        rcases special with control | delete
        · exact Nat.lt_trans (show c.toNat < ' '.toNat from control) (by decide)
        · rw [delete]
          decide
      have high := escapeHash_other (digitChar_ne_hash (show c.toNat / 16 < 16 by omega))
      have low := escapeHash_other (digitChar_ne_hash (show c.toNat % 16 < 16 by omega))
      simp only [List.flatMap_cons, List.flatMap_nil, high, low]
      exact .unit small
    · by_cases hash : c = '#'
      · rw [hash]
        exact .short rfl
      · rw [List.flatMap_singleton, escapeHash_other hash]
        exact .itself noQuote noBackslash hash

theorem Written.endsAtQuote {c : Char} {text rest : List Char} (written : Written c text) :
    Token.EndsAtQuote (text ++ rest) ↔ Token.EndsAtQuote rest := by
  cases written with
  | itself noQuote noBackslash noHash => exact Token.endsAtQuote_cons noQuote noBackslash
  | short means => exact Token.endsAtQuote_pair
  | unit small =>
    have high := Quoted.digitChar_ne_mark (show c.toNat / 16 < 16 by omega)
    have low := Quoted.digitChar_ne_mark (show c.toNat % 16 < 16 by omega)
    have plain : ∀ d ∈ ['0', '0', Nat.digitChar (c.toNat / 16), Nat.digitChar (c.toNat % 16)],
        d ≠ '"' ∧ d ≠ '\\' := by
      simp [high, low]
    exact Token.endsAtQuote_pair.trans (Token.endsAtQuote_plain plain)

theorem endsAtQuote_encode (text : List Char) :
    Token.EndsAtQuote ((Quoted.encode text).flatMap escapeHash) := by
  induction text with
  | nil => exact Token.endsAtQuote_nil
  | cons c text ih =>
    rw [Quoted.encode_cons, List.flatMap_append]
    exact (written_escapeChar c).endsAtQuote.mpr ih

theorem toList_symbol (name : String) : (symbol name).toList =
    ':' :: (if isMethodName name.toList then name else string name).toList := by
  unfold symbol
  split <;> exact String.toList_append

end Ruby

theorem Quoted.encode_inj {text other : List Char} (same : encode text = encode other) :
    text = other := by
  have decoded := decode_encode text
  rw [same, decode_encode] at decoded
  exact (Except.ok.inj decoded).symm

namespace Target

variable (target : Target) {rest others : List Char}

def stringBody : Target → String → List Char
  | ruby, text => (Quoted.encode text.toList).flatMap Ruby.escapeHash
  | javascript, text => Quoted.encode text.toList

theorem toList_string (text : String) :
    (target.string text).toList = '"' :: (target.stringBody text ++ ['"']) := by
  cases target with
  | ruby => simp [string, Ruby.string, Quoted.quote, stringBody, Ruby.escapeHash]
  | javascript => simp [string, JavaScript.string, Quoted.quote, stringBody]

theorem endsAtQuote_stringBody (text : String) : Token.EndsAtQuote (target.stringBody text) := by
  cases target with
  | ruby => exact Ruby.endsAtQuote_encode text.toList
  | javascript => exact Token.splitQuoted_endsAtQuote (Token.splitQuoted_encode text.toList [])

theorem stringBody_inj {text other : String} (same : target.stringBody text = target.stringBody other) :
    text = other := by
  apply String.toList_inj.mp
  cases target with
  | ruby => exact Quoted.encode_inj (Ruby.flatMap_escapeHash_inj same)
  | javascript => exact Quoted.encode_inj same

/-- A string literal ends at its second unescaped quote. -/
theorem string_append_inj {text other : String}
    (same : (target.string text).toList ++ rest = (target.string other).toList ++ others) :
    text = other ∧ rest = others := by
  simp only [toList_string, List.cons_append, List.append_assoc, List.cons.injEq, true_and,
    List.nil_append] at same
  have ends := endsAtQuote_stringBody target text
  rcases ends.unique (endsAtQuote_stringBody target other) same with ⟨bodies, behind⟩
  exact ⟨stringBody_inj target bodies, behind⟩

theorem method_append_ne {name other : String} (method : Ruby.isMethodName name.toList) :
    name.toList ++ rest ≠ (Ruby.string other).toList ++ others := by
  intro same
  have quoted : (Ruby.string other).toList = _ := toList_string ruby other
  have simple := isMethodName_simple method
  rw [quoted] at same
  cases chars : name.toList with
  | nil =>
    rw [chars] at method
    cases method
  | cons c text =>
    rw [chars] at simple same
    have mark : c = '"' := (List.cons.inj same).1
    have isMark := simple c List.mem_cons_self
    rw [mark] at isMark
    exact absurd isMark (by decide)

theorem symbol_append_inj {name other : String} (ends : Interrupts rest) (stops : Interrupts others)
    (same : (target.symbol name).toList ++ rest = (target.symbol other).toList ++ others) :
    name = other ∧ rest = others := by
  cases target with
  | ruby =>
    simp only [symbol, Ruby.toList_symbol, List.cons_append, List.cons.injEq, true_and] at same
    split at same
    · next method =>
      split at same
      · next also =>
        rcases simple_append_inj (isMethodName_simple method) (isMethodName_simple also) ends stops
          same with ⟨names, behind⟩
        exact ⟨String.toList_inj.mp names, behind⟩
      · exact absurd same (method_append_ne method)
    · split at same
      · next also => exact absurd same.symm (method_append_ne also)
      · exact string_append_inj ruby same
  | javascript =>
    simp only [symbol, JavaScript.symbol, String.toList_append, List.append_assoc] at same
    rcases string_append_inj javascript (List.append_cancel_left same) with ⟨names, behind⟩
    exact ⟨names, (List.cons.inj behind).2⟩

theorem integer_append_inj {value other : Int64} (ends : Interrupts rest) (stops : Interrupts others)
    (same : (integer value).toList ++ rest = (integer other).toList ++ others) :
    value = other ∧ rest = others := by
  rcases simple_append_inj (toString_simple _) (toString_simple _) ends stops same with ⟨texts, behind⟩
  have read := Datum.ofWord?_integer value
  rw [String.toList_inj.mp texts, Datum.ofWord?_integer other] at read
  have values : other = value := by simpa using read
  exact ⟨values.symm, behind⟩

end Target

inductive Datum.Shape where
  | list
  | string
  | symbol
  | bool (value : Bool)
  | nil
  | number
  deriving DecidableEq

def Datum.shape : Datum → Shape
  | list _ => .list
  | string _ => .string
  | symbol _ => .symbol
  | bool value => .bool value
  | nil => .nil
  | integer _ | float _ => .number

namespace Target

def symbolMark : Target → Char
  | ruby => ':'
  | javascript => 'S'

def shapeOf? (target : Target) (first : Char) : Option Datum.Shape :=
  if first = '[' then some .list
  else if first = '"' then some .string
  else if first = target.symbolMark then some .symbol
  else if first = 't' then some (.bool true)
  else if first = 'f' then some (.bool false)
  else if first = 'n' then some .nil
  else if first = '-' ∨ first.isDigit then some .number
  else none

variable (target : Target) {rest others : List Char}

theorem shapeOf?_digit {first : Char} (digit : first.isDigit) :
    target.shapeOf? first = some .number := by
  have differs : ∀ other : Char, other.isDigit = false → first ≠ other := by
    intro other noDigit same
    rw [← same, digit] at noDigit
    cases noDigit
  have noMark : first ≠ target.symbolMark := by
    cases target <;> exact differs _ (by decide)
  simp (disch := decide) [shapeOf?, differs, noMark, digit]

theorem integer_first (value : Int64) :
    ∃ first behind, (integer value).toList = first :: behind ∧
      target.shapeOf? first = some .number := by
  rw [integer, Numeral.toList_toString]
  by_cases negative : value.toInt < 0
  · refine ⟨'-', Nat.toDigits 10 value.toInt.natAbs, by simp [negative], ?_⟩
    cases target <;> rfl
  · cases digits : Nat.toDigits 10 value.toInt.natAbs with
    | nil => exact absurd digits Nat.toDigits_ne_nil
    | cons first behind =>
      refine ⟨first, behind, by simp [negative], target.shapeOf?_digit ?_⟩
      exact Numeral.toDigits_isDigit value.toInt.natAbs first (by simp [digits])

theorem symbol_first (name : String) :
    ∃ behind, (target.symbol name).toList = target.symbolMark :: behind := by
  cases target with
  | ruby => exact ⟨_, Ruby.toList_symbol name⟩
  | javascript =>
    simp only [symbol, JavaScript.symbol, String.toList_append, List.append_assoc]
    exact ⟨_, rfl⟩

def behindText : List Datum → List Char
  | [] => [']']
  | item :: items => ',' :: ' ' :: ((target.literal item).toList ++ behindText items)

def insideText : List Datum → List Char
  | [] => [']']
  | item :: items => (target.literal item).toList ++ target.behindText items

theorem toList_commaList_literals (item : Datum) (items : List Datum) :
    (commaList (target.literals (item :: items))).toList ++ [']'] =
      (target.literal item).toList ++ target.behindText items := by
  induction items generalizing item with
  | nil => simp [literals, commaList, behindText]
  | cons next items ih =>
    rw [literals, literals, toList_commaList_cons_cons, behindText, ← ih next, literals]
    simp

theorem toList_literal_list (items : List Datum) :
    (target.literal (.list items)).toList = '[' :: target.insideText items := by
  have brackets : (target.literal (.list items)).toList =
      '[' :: ((commaList (target.literals items)).toList ++ [']']) := by
    simp [literal]
  cases items with
  | nil => cases target <;> rfl
  | cons item items => rw [brackets, toList_commaList_literals, insideText]

theorem literal_first (datum : Datum) (floatFree : datum.floatFree) :
    ∃ first behind, (target.literal datum).toList = first :: behind ∧
      target.shapeOf? first = some datum.shape := by
  cases datum with
  | integer value => exact integer_first target value
  | float value => cases floatFree
  | string text => exact ⟨'"', _, toList_string target text, rfl⟩
  | bool value =>
    cases value with
    | false => cases target <;> exact ⟨'f', _, rfl, rfl⟩
    | true => cases target <;> exact ⟨'t', _, rfl, rfl⟩
  | nil => cases target <;> exact ⟨'n', _, rfl, rfl⟩
  | symbol name =>
    rcases symbol_first target name with ⟨behind, text⟩
    exact ⟨_, behind, text, by cases target <;> rfl⟩
  | list items => exact ⟨'[', _, toList_literal_list target items, rfl⟩

/-- Literals in front of two equal texts are of the same shape. -/
theorem shape_eq {a b : Datum} (floatFree : a.floatFree) (free : b.floatFree)
    (same : (target.literal a).toList ++ rest = (target.literal b).toList ++ others) :
    a.shape = b.shape := by
  rcases literal_first target a floatFree with ⟨first, behind, text, shape⟩
  rcases literal_first target b free with ⟨second, after, other, likewise⟩
  rw [text, other] at same
  rw [(List.cons.inj same).1, likewise] at shape
  exact (Option.some.inj shape).symm

theorem literal_append_ne_closed (datum : Datum) (floatFree : datum.floatFree) :
    (target.literal datum).toList ++ rest ≠ ']' :: others := by
  intro same
  rcases literal_first target datum floatFree with ⟨first, behind, text, shape⟩
  rw [text] at same
  rw [(List.cons.inj same).1] at shape
  cases target <;> cases shape

theorem interrupts_behindText (items : List Datum) : Interrupts (target.behindText items ++ rest) := by
  cases items with
  | nil => exact interrupts_cons (by decide)
  | cons item items => exact interrupts_cons (by decide)

/-- The datum is known from any text that its literal stands in front of. -/
def Known (datum : Datum) : Prop :=
  ∀ {other rest others}, other.floatFree → Interrupts rest → Interrupts others →
    (target.literal datum).toList ++ rest = (target.literal other).toList ++ others →
    datum = other ∧ rest = others

def KnownItems (items : List Datum) : Prop :=
  ∀ {others rest behind}, Datum.floatFreeList others →
    target.behindText items ++ rest = target.behindText others ++ behind →
    items = others ∧ rest = behind

theorem known_cons {item other : Datum} {items others : List Datum} {rest behind : List Char}
    (first : target.Known item) (second : target.KnownItems items)
    (free : Datum.floatFreeList (other :: others))
    (same : (target.literal item).toList ++ (target.behindText items ++ rest) =
      (target.literal other).toList ++ (target.behindText others ++ behind)) :
    item :: items = other :: others ∧ rest = behind := by
  simp only [Datum.floatFreeList, Bool.and_eq_true] at free
  rcases first free.1 (interrupts_behindText target items) (interrupts_behindText target others)
    same with ⟨rfl, after⟩
  rcases second free.2 after with ⟨rfl, ends⟩
  exact ⟨rfl, ends⟩

mutual

theorem known_literal (datum : Datum) (floatFree : datum.floatFree) : target.Known datum := by
  intro other rest others free ends stops same
  have shape := shape_eq target floatFree free same
  cases datum with
  | integer value =>
    cases other with
    | integer other =>
      rcases integer_append_inj ends stops same with ⟨rfl, behind⟩
      exact ⟨rfl, behind⟩
    | float other => cases free
    | _ => cases shape
  | float value => cases floatFree
  | string text =>
    cases other with
    | string other =>
      rcases string_append_inj target same with ⟨rfl, behind⟩
      exact ⟨rfl, behind⟩
    | _ => cases shape
  | bool value =>
    cases other with
    | bool other =>
      cases shape
      exact ⟨rfl, List.append_cancel_left same⟩
    | _ => cases shape
  | nil =>
    cases other with
    | nil => exact ⟨rfl, List.append_cancel_left same⟩
    | _ => cases shape
  | symbol name =>
    cases other with
    | symbol other =>
      rcases symbol_append_inj target ends stops same with ⟨rfl, behind⟩
      exact ⟨rfl, behind⟩
    | _ => cases shape
  | list items =>
    cases other with
    | list others =>
      rw [toList_literal_list, toList_literal_list] at same
      rcases known_inside items floatFree free (List.cons.inj same).2 with ⟨rfl, behind⟩
      exact ⟨rfl, behind⟩
    | _ => cases shape

theorem known_inside (items : List Datum) {others : List Datum} {rest behind : List Char}
    (floatFree : Datum.floatFreeList items) (free : Datum.floatFreeList others)
    (same : target.insideText items ++ rest = target.insideText others ++ behind) :
    items = others ∧ rest = behind := by
  cases items with
  | nil =>
    cases others with
    | nil => exact ⟨rfl, (List.cons.inj same).2⟩
    | cons other others =>
      simp only [Datum.floatFreeList, Bool.and_eq_true] at free
      rw [insideText, insideText, List.append_assoc] at same
      exact absurd same.symm (literal_append_ne_closed target other free.1)
  | cons item items =>
    simp only [Datum.floatFreeList, Bool.and_eq_true] at floatFree
    cases others with
    | nil =>
      rw [insideText, insideText, List.append_assoc] at same
      exact absurd same (literal_append_ne_closed target item floatFree.1)
    | cons other others =>
      rw [insideText, insideText, List.append_assoc, List.append_assoc] at same
      exact known_cons target (known_literal item floatFree.1) (known_behind items floatFree.2) free same

theorem known_behind (items : List Datum) (floatFree : Datum.floatFreeList items) :
    target.KnownItems items := by
  intro others rest behind free same
  cases items with
  | nil =>
    cases others with
    | nil => exact ⟨rfl, (List.cons.inj same).2⟩
    | cons other others => exact absurd (List.cons.inj same).1 (by decide)
  | cons item items =>
    simp only [Datum.floatFreeList, Bool.and_eq_true] at floatFree
    cases others with
    | nil => exact absurd (List.cons.inj same).1 (by decide)
    | cons other others =>
      simp only [behindText, List.cons_append, List.cons.injEq, true_and, List.append_assoc] at same
      exact known_cons target (known_literal item floatFree.1) (known_behind items floatFree.2) free same

end

/-- Data without floats are known from their literals, and the arguments of a macro from the text
that an interpreter gets. -/
theorem literal_eq_iff :
    (∀ a b : Datum, a.floatFree → b.floatFree → (target.literal a = target.literal b ↔ a = b)) ∧
      ∀ args others : List Datum, Datum.floatFreeList args → Datum.floatFreeList others →
        (Interpreter.argumentText target args = Interpreter.argumentText target others ↔
          args = others) := by
  have known : ∀ a b : Datum, a.floatFree → b.floatFree →
      (target.literal a = target.literal b ↔ a = b) := by
    intro a b floatFree free
    constructor
    · intro same
      have texts := congrArg (·.toList ++ []) same
      exact (known_literal target a floatFree free (by simp [Interrupts]) (by simp [Interrupts]) texts).1
    · intro same
      rw [same]
  refine ⟨known, ?_⟩
  intro args others floatFree free
  have lists := known (.list args) (.list others) floatFree free
  rwa [Datum.list.injEq] at lists

/-- The texts are `[:a, :b=, "\\#"]` and `[:"a, :b=", "\\#"]`. -/
theorem literal_eq_iff_separator :
    Interpreter.argumentText ruby [.symbol "a", .symbol "b=", .string "#"] ≠
      Interpreter.argumentText ruby [.symbol "a, :b=", .string "#"] := by
  intro same
  have args := ((literal_eq_iff ruby).2 _ _ rfl rfl).mp same
  simp at args

end Target

end LispCompiler
