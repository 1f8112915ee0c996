import Mathlib.Data.List.Forall2
import LispCompiler.Datum.Printer
import LispCompiler.Proofs.Datum.Height
import LispCompiler.Proofs.Datum.Reading
import LispCompiler.Proofs.Datum.Word

/-!
Reading back what was printed. The printer puts a quote mark before every list, so that what is read
is the datum with all its lists quoted. Main statement: this holds for every datum without floats
whose symbols are words, down to half of the levels that the reader allows.
-/

namespace LispCompiler

namespace Datum

mutual

def requoted : Datum → Datum
  | list items => marked Marker.quote.symbol (list (requotedList items))
  | atom => atom

def requotedList : List Datum → List Datum
  | [] => []
  | item :: items => item.requoted :: requotedList items

end

mutual

def floatFree : Datum → Bool
  | list items => floatFreeList items
  | float _ => false
  | _ => true

def floatFreeList : List Datum → Bool
  | [] => true
  | item :: items => item.floatFree && floatFreeList items

end

mutual

def symbols : Datum → List String
  | list items => symbolsList items
  | symbol name => [name]
  | _ => []

def symbolsList : List Datum → List String
  | [] => []
  | item :: items => item.symbols ++ symbolsList items

end

section Items

variable {item : Datum} {items : List Datum}

theorem printList_eq_map (items : List Datum) : printList items = items.map print := by
  induction items with
  | nil => rfl
  | cons item items ih => rw [printList, ih, List.map_cons]

theorem requotedList_eq_map (items : List Datum) : requotedList items = items.map requoted := by
  induction items with
  | nil => rfl
  | cons item items ih => rw [requotedList, ih, List.map_cons]

theorem floatFree_of_mem (floatFree : floatFreeList items) (member : item ∈ items) : item.floatFree := by
  induction items with
  | nil => cases member
  | cons first items ih =>
    simp only [floatFreeList, Bool.and_eq_true] at floatFree
    rcases List.mem_cons.mp member with rfl | later
    · exact floatFree.1
    · exact ih floatFree.2 later

theorem symbols_of_mem (member : item ∈ items) : item.symbols ⊆ symbolsList items := by
  induction items with
  | nil => cases member
  | cons first items ih =>
    rcases List.mem_cons.mp member with rfl | later
    · exact List.subset_append_left _ _
    · exact List.subset_append_of_subset_right _ (ih later)

end Items

structure IsSymbolName (name : String) : Prop where
  word : Token.IsWord name.toList
  unknown : literal? name = none
  unwritten : Numeral.ofText? name.toList = none

end Datum

open Token Grammar

theorem Token.stringText_eq_decode (token : Token)
    (plain : token.kind = .plainString → '\\' ∉ token.inner) :
    token.stringText = (Quoted.decode token.inner).map String.ofList := by
  unfold stringText
  by_cases kind : token.kind = .plainString
  · rw [if_pos kind, Quoted.decode_of_plain (plain kind)]
  · rw [if_neg kind]

theorem Token.inner_ofQuoted (position : Nat) (text : String) :
    (ofQuoted position text).inner = Quoted.encode text.toList := by
  simp [inner, ofQuoted, Quoted.quote]

theorem Token.stringText_ofQuoted (position : Nat) (text : String) :
    (ofQuoted position text).stringText = .ok text := by
  rw [stringText_eq_decode, inner_ofQuoted, Quoted.decode_encode]
  · simp [Except.map]
  · intro plain
    rw [inner_ofQuoted]
    simpa [ofQuoted] using plain

/-- In any context that continues no word, the text is lexed as tokens of which `accept` holds. -/
def LexesAs (text : List Char) (accept : List Token → Prop) : Prop :=
  ∀ position rest, Separated rest →
    ∃ tokens after, lexFrom position (text ++ rest) = tokens ++ lexFrom after rest ∧ accept tokens

theorem lexesAs_word {level : Nat} {word : String} {datum : Datum} (isWord : IsWord word.toList)
    (denotes : Datum.ofWord? word = some datum) :
    LexesAs word.toList (Form level · datum) := by
  intro position rest separated
  have lexed : lexFrom position (word.toList ++ rest) = _ := lexFrom_word isWord separated
  rw [String.ofList_toList] at lexed
  exact ⟨[_], _, lexed, .atom ((atom_word_iff rfl datum).mpr denotes)⟩

theorem lexesAs_quote {level : Nat} (text : String) :
    LexesAs (Quoted.quote text).toList (Form level · (.string text)) := by
  intro position rest _
  refine ⟨[ofQuoted position text], _, lexFrom_quote text, .atom (.string ?_ ?_)⟩
  · unfold ofQuoted
    split <;> simp
  · exact stringText_ofQuoted position text

theorem separated_cons {c : Char} {rest : List Char} (other : isWordChar c = false) :
    Separated (c :: rest) := by
  rintro _ ⟨⟩
  exact other

theorem lexesAs_parens {level : Nat} {inner : List Char} {items : List Datum}
    (shallow : level < maxNesting) (between : LexesAs inner (Forms (level + 1) · items)) :
    LexesAs ('(' :: (inner ++ [')'])) (Form level · (.list items)) := by
  intro position rest _
  obtain ⟨tokens, after, lexed, forms⟩ :=
    between (position + 1) (')' :: rest) (separated_cons (by decide))
  rw [lexFrom_closeParen] at lexed
  refine ⟨⟨.opener .paren, position, "("⟩ :: (tokens ++ [⟨.closer .paren, after, ")"⟩]), after + 1,
    ?_, .list rfl rfl shallow forms⟩
  simp [lexFrom_openParen, lexed]

theorem lexesAs_quoteMark {level : Nat} {text : List Char} {datum : Datum} (shallow : level < maxNesting)
    (behind : LexesAs text (Form (level + 1) · datum)) :
    LexesAs ('\'' :: text) (Form level · (.marked Marker.quote.symbol datum)) := by
  intro position rest separated
  obtain ⟨tokens, after, lexed, form⟩ := behind (position + 1) rest separated
  refine ⟨⟨.marker .quote, position, "'"⟩ :: ([] ++ tokens), after, ?_,
    .marked rfl shallow (List.forall_mem_nil _) form⟩
  simp [lexFrom_quoteMark, lexed]

theorem lexesAs_cons {level : Nat} {text others : List Char} {datum : Datum} {data : List Datum}
    (first : LexesAs text (Form level · datum)) (behind : LexesAs others (Forms level · data)) :
    LexesAs (text ++ ' ' :: others) (Forms level · (datum :: data)) := by
  intro position rest separated
  obtain ⟨tokens, after, lexed, form⟩ :=
    first position (' ' :: (others ++ rest)) (separated_cons (by decide))
  rcases behind (after + 1) rest separated with ⟨more, last, lexedMore, forms⟩
  refine ⟨tokens ++ more, last, ?_, .form form forms⟩
  calc lexFrom position (text ++ ' ' :: others ++ rest)
      = tokens ++ lexFrom after (' ' :: (others ++ rest)) := by simpa using lexed
    _ = tokens ++ lexFrom (after + 1) (others ++ rest) := by rw [lexFrom_blank (by decide)]; rfl
    _ = tokens ++ more ++ lexFrom last rest := by rw [lexedMore, List.append_assoc]

abbrev LexEachAs (level : Nat) : List String → List Datum → Prop :=
  List.Forall₂ fun text datum => LexesAs text.toList (Form level · datum)

theorem lexesAs_spaced {level : Nat} {texts : List String} {data : List Datum}
    (each : LexEachAs level texts data) :
    LexesAs (" ".intercalate texts).toList (Forms level · data) := by
  induction each with
  | nil => exact fun position rest _ => ⟨[], position, rfl, .nil⟩
  | cons first others ih =>
    cases others with
    | nil =>
      intro position rest separated
      rcases first position rest separated with ⟨tokens, after, lexed, form⟩
      refine ⟨tokens ++ [], after, ?_, .form form .nil⟩
      simpa using lexed
    | cons next others =>
      have whole := lexesAs_cons first ih
      simpa [String.intercalate_cons_cons] using whole

theorem lexEachAs_map {level : Nat} {text : Datum → String} {value : Datum → Datum} {items : List Datum}
    (each : ∀ item ∈ items, LexesAs (text item).toList (Form level · (value item))) :
    LexEachAs level (items.map text) (items.map value) := by
  rw [LexEachAs, List.forall₂_map_left_iff, List.forall₂_map_right_iff, List.forall₂_same]
  exact each

theorem lexesAs_print {level : Nat} (datum : Datum) (floatFree : datum.floatFree)
    (readable : ∀ name ∈ datum.symbols, Datum.IsSymbolName name)
    (shallow : level + 2 * datum.height ≤ maxNesting) :
    LexesAs datum.print.toList (Form level · datum.requoted) := by
  cases datum with
  | integer value =>
    exact lexesAs_word (Datum.isWord_integer value.toInt) (Datum.ofWord?_integer value)
  | float value => simp [Datum.floatFree] at floatFree
  | string text => exact lexesAs_quote text
  | bool value =>
    cases value with
    | false => exact lexesAs_word (isWord_of_all (by decide) (by decide) (by decide)) rfl
    | true => exact lexesAs_word (isWord_of_all (by decide) (by decide) (by decide)) rfl
  | nil => exact lexesAs_word (isWord_of_all (by decide) (by decide) (by decide)) rfl
  | symbol name =>
    rcases readable name (by simp [Datum.symbols]) with ⟨word, unknown, unwritten⟩
    simp only [Datum.print, Datum.requoted]
    exact lexesAs_word word (by simp [Datum.ofWord?, unknown, unwritten])
  | list items =>
    rw [Datum.height] at shallow
    have each : LexEachAs (level + 2) (items.map Datum.print) (items.map Datum.requoted) := by
      refine lexEachAs_map fun item member => ?_
      have lower := Datum.height_le_of_mem member
      exact lexesAs_print item (Datum.floatFree_of_mem floatFree member)
        (fun name named => readable name (Datum.symbols_of_mem member named)) (by omega)
    have whole := lexesAs_quoteMark (by omega) (lexesAs_parens (by omega) (lexesAs_spaced each))
    simpa [Datum.print, Datum.requoted, Datum.printList_eq_map, Datum.requotedList_eq_map] using whole

/-- Printing, then reading the text back, quotes every list of the datum and changes nothing else. -/
theorem readBack_print (datum : Datum) (floatFree : datum.floatFree)
    (readable : ∀ name ∈ datum.symbols, Datum.IsSymbolName name) (shallow : datum.depth ≤ 128) :
    Datum.readFirst datum.print = .ok (some datum.requoted) ∧
      Datum.readAll datum.print = .ok [datum.requoted] := by
  have within : 0 + 2 * datum.height ≤ maxNesting := by
    rw [Datum.depth_eq_height] at shallow
    simp only [maxNesting]
    omega
  obtain ⟨tokens, after, lexed, form⟩ :=
    lexesAs_print datum floatFree readable within 0 [] (by simp [Separated])
  have whole : Token.lex datum.print = tokens ++ [⟨.eof, after, ""⟩] := by
    simpa [Token.lex, lexFrom_nil] using lexed
  constructor
  · exact Reader.readFirst_complete whole form
  · have forms : Forms 0 (tokens ++ []) [datum.requoted] := .form form .nil
    rw [List.append_nil] at forms
    exact Reader.readAll_complete whole rfl forms

/-- `(def λ;x "a\n\\" (-9223372036854775808 () nil))` -/
def Datum.nestedDefinition : Datum :=
  .list [.symbol "def", .symbol "λ;x", .string "a\n\\",
    .list [.integer Int64.minValue, .list [], .nil]]

theorem readBack_print_nestedDefinition :
    Datum.readAll Datum.nestedDefinition.print = .ok [Datum.nestedDefinition.requoted] := by
  refine (readBack_print Datum.nestedDefinition rfl ?_ ?_).2
  · have names : Datum.nestedDefinition.symbols = ["def", "λ;x"] := rfl
    rw [names, List.forall_mem_cons, List.forall_mem_singleton]
    constructor
    · exact ⟨isWord_of_all (by decide) (by decide) (by decide), by decide, by decide⟩
    · exact ⟨isWord_of_all (by decide) (by decide) (by decide), by decide, by decide⟩
  · rw [Datum.depth_eq_height]
    decide

end LispCompiler
