import LispCompiler.Double.Shortest
import LispCompiler.Proofs.Datum.Word
import LispCompiler.Proofs.Text.Whitespace
import LispCompiler.Target.JavaScript
import LispCompiler.Target.Ruby
import LispCompiler.Identifier

namespace LispCompiler

def isSimple (c : Char) : Bool :=
  c.isAlphanum || ['_', '.', '-', '?', '!', '=', '$'].contains c

theorem simple_of_all {text : List Char} (all : text.all isSimple) : ∀ c ∈ text, isSimple c :=
  List.all_eq_true.mp all

theorem isSimple_of_isAlpha {c : Char} (letter : c.isAlpha) : isSimple c := by
  simp [isSimple, Char.isAlphanum, letter]

theorem isSimple_of_isDigit {c : Char} (digit : c.isDigit) : isSimple c := by
  simp [isSimple, Char.isAlphanum, digit]

theorem toDigits_simple (magnitude : Nat) : ∀ c ∈ Nat.toDigits 10 magnitude, isSimple c :=
  fun c member => isSimple_of_isDigit (Numeral.toDigits_isDigit magnitude c member)

theorem toString_simple (value : Int) : ∀ c ∈ (toString value).toList, isSimple c := by
  rw [Numeral.toList_toString]
  refine List.forall_mem_append.mpr ⟨?_, toDigits_simple value.natAbs⟩
  split
  · exact simple_of_all (by decide)
  · exact simple_of_all (by decide)

theorem encodeChar_simple (c : Char) : ∀ written ∈ Identifier.encodeChar c, isSimple written := by
  unfold Identifier.encodeChar
  split
  · next letter =>
    rw [List.forall_mem_singleton]
    rcases Bool.or_eq_true_iff.mp letter with alpha | underscore
    · exact isSimple_of_isAlpha alpha
    · rw [beq_iff_eq.mp underscore]
      decide
  · split
    · exact simple_of_all (by decide)
    · split
      · exact simple_of_all (by decide)
      · exact List.forall_mem_cons.mpr ⟨by decide, toDigits_simple c.toNat⟩

theorem ofName_simple (name : String) : ∀ c ∈ (Identifier.ofName name).toList, isSimple c := by
  unfold Identifier.ofName
  split
  · next operator found =>
    unfold Identifier.operatorAlias? at found
    split at found <;> cases found <;> exact simple_of_all (by decide)
  · intro c member
    rw [String.toList_ofList, List.mem_flatMap] at member
    rcases member with ⟨source, _, written⟩
    exact encodeChar_simple source c written

theorem encodeChar_start (c : Char) : ∃ first rest, Identifier.encodeChar c = first :: rest ∧
    (first.isAlpha || first == '_') := by
  unfold Identifier.encodeChar
  split
  · next letter => exact ⟨c, [], rfl, letter⟩
  · split
    · exact ⟨_, _, rfl, by decide⟩
    · split
      · exact ⟨_, _, rfl, by decide⟩
      · exact ⟨_, _, rfl, by decide⟩

theorem encodeChar_part (c : Char) :
    ∀ written ∈ Identifier.encodeChar c, written.isAlpha || written == '_' || written.isDigit := by
  unfold Identifier.encodeChar
  split
  · next letter =>
    rw [List.forall_mem_singleton, letter]
    rfl
  · split
    · exact List.all_eq_true.mp (by decide)
    · split
      · exact List.all_eq_true.mp (by decide)
      · refine List.forall_mem_cons.mpr ⟨by decide, fun digit member => ?_⟩
        rw [Numeral.toDigits_isDigit c.toNat digit member, Bool.or_true]

theorem ofName_isIdentifier (extra : Char → Bool) {name : String} (filled : name ≠ "") :
    isIdentifier extra (Identifier.ofName name).toList := by
  unfold Identifier.ofName
  split
  · next operator found =>
    unfold Identifier.operatorAlias? at found
    split at found <;> cases found <;> rfl
  · rw [String.toList_ofList]
    cases characters : name.toList with
    | nil => exact absurd (String.toList_inj.mp characters) filled
    | cons c rest =>
      rcases encodeChar_start c with ⟨first, others, written, start⟩
      have parts : ∀ part ∈ (c :: rest).flatMap Identifier.encodeChar,
          part.isAlpha || part == '_' || part.isDigit := by
        intro part member
        rcases List.mem_flatMap.mp member with ⟨source, _, encoded⟩
        exact encodeChar_part source part encoded
      rw [List.flatMap_cons, written, List.cons_append] at parts ⊢
      simp only [isIdentifier, Bool.and_eq_true, List.all_eq_true]
      refine ⟨by rw [start, Bool.true_or], fun part member => ?_⟩
      rcases Bool.or_eq_true_iff.mp (parts part (List.mem_cons_of_mem _ member)) with letter | digit
      · rw [letter, Bool.true_or, Bool.true_or]
      · rw [digit, Bool.or_true]

theorem isIdentifier_simple {extra : Char → Bool} {name : List Char}
    (harmless : ∀ c, extra c → isSimple c) (identifier : isIdentifier extra name) :
    ∀ c ∈ name, isSimple c := by
  have start : ∀ c : Char, (c.isAlpha || c == '_' || extra c) → isSimple c := by
    intro c isStart
    simp only [Bool.or_eq_true, beq_iff_eq] at isStart
    rcases isStart with (alpha | rfl) | other
    · exact isSimple_of_isAlpha alpha
    · decide
    · exact harmless c other
  cases name with
  | nil => simp
  | cons first rest =>
    simp only [isIdentifier, Bool.and_eq_true, List.all_eq_true] at identifier
    refine List.forall_mem_cons.mpr ⟨start first identifier.1, fun c member => ?_⟩
    rcases Bool.or_eq_true_iff.mp (identifier.2 c member) with isStart | digit
    · exact start c isStart
    · exact isSimple_of_isDigit digit

theorem isMethodName_simple {name : List Char} (method : Ruby.isMethodName name) :
    ∀ c ∈ name, isSimple c := by
  unfold Ruby.isMethodName at method
  split at method
  · next suffixed =>
    rcases (Option.any_eq_true ..).mp suffixed with ⟨last, ends, suffix⟩
    rcases List.getLast?_eq_some_iff.mp ends with ⟨base, rfl⟩
    rw [List.dropLast_concat] at method
    refine List.forall_mem_append.mpr ⟨isIdentifier_simple (by simp) method, ?_⟩
    rw [List.forall_mem_singleton]
    simp only [Ruby.isMethodSuffix, Bool.or_eq_true, beq_iff_eq] at suffix
    rcases suffix with (rfl | rfl) | rfl <;> decide
  · exact isIdentifier_simple (by simp) method

theorem isName_simple {name : List Char} (property : JavaScript.isName name) :
    ∀ c ∈ name, isSimple c := by
  apply isIdentifier_simple _ property
  intro c dollar
  rw [beq_iff_eq.mp dollar]
  decide

theorem ofScaled_isDigit (significand place : Nat) :
    ∀ c ∈ (Double.Digits.ofScaled significand place).text, c.isDigit := by
  intro c member
  have kept := (List.dropWhile_sublist _).mem (List.mem_reverse.mp member)
  exact Numeral.toDigits_isDigit significand c (List.mem_reverse.mp kept)

theorem shortest_isDigit (rank : Nat) : ∀ c ∈ (Double.shortest rank).text, c.isDigit := by
  simp only [Double.shortest]
  split
  · next digits found =>
    rcases List.exists_of_findSome?_eq_some found with ⟨place, _, fits⟩
    rcases Option.map_eq_some_iff.mp fits with ⟨significand, _, rfl⟩
    exact ofScaled_isDigit significand place
  · exact ofScaled_isDigit 0 0

theorem shortest_simple (rank : Nat) : ∀ c ∈ (Double.shortest rank).text, isSimple c :=
  fun c member => isSimple_of_isDigit (shortest_isDigit rank c member)

theorem zeros_simple (count : Nat) : ∀ c ∈ Double.zeros count, isSimple c := by
  intro c member
  rw [List.eq_of_mem_replicate member]
  decide

theorem positional_simple {digits : Double.Digits} (each : ∀ c ∈ digits.text, isSimple c) :
    ∀ c ∈ digits.positional, isSimple c := by
  have point : isSimple '.' = true := by decide
  have zero : isSimple '0' = true := by decide
  unfold Double.Digits.positional
  split
  · next places _ =>
    simp only [List.forall_mem_cons, List.forall_mem_append]
    exact ⟨zero, point, zeros_simple places, each⟩
  · dsimp only
    split
    · simp only [List.forall_mem_cons, List.forall_mem_append]
      exact ⟨⟨each, zeros_simple _⟩, point, zero, by simp⟩
    · simp only [List.forall_mem_cons, List.forall_mem_append]
      exact ⟨fun c member => each c (List.mem_of_mem_take member), point,
        fun c member => each c (List.mem_of_mem_drop member)⟩

theorem scientific_simple {digits : Double.Digits} (each : ∀ c ∈ digits.text, isSimple c) :
    ∀ c ∈ digits.scientific, isSimple c := by
  have fraction : ∀ c ∈ (if digits.text.length ≤ 1 then [] else '.' :: digits.text.drop 1),
      isSimple c := by
    split
    · simp
    · exact List.forall_mem_cons.mpr
        ⟨by decide, fun c member => each c (List.mem_of_mem_drop member)⟩
  simp only [Double.Digits.scientific, List.forall_mem_append, List.forall_mem_cons]
  exact ⟨⟨fun c member => each c (List.mem_of_mem_take member), fraction⟩, by decide,
    toString_simple digits.exponent⟩

theorem sign_simple (negative : Bool) : ∀ c ∈ Double.sign negative, isSimple c := by
  cases negative with
  | false => exact simple_of_all (by decide)
  | true => exact simple_of_all (by decide)

theorem render_simple (value : Double) : ∀ c ∈ value.render.toList, isSimple c := by
  cases value with
  | finite negative rank =>
    simp only [Double.render, String.toList_ofList, List.forall_mem_append]
    refine ⟨sign_simple negative, ?_⟩
    split
    · exact simple_of_all (by decide)
    · unfold Double.Digits.render
      split
      · exact positional_simple (shortest_simple rank)
      · exact scientific_simple (shortest_simple rank)
  | infinite negative =>
    simp only [Double.render, String.toList_ofList, List.forall_mem_append]
    exact ⟨sign_simple negative, simple_of_all (by decide)⟩
  | nan => exact simple_of_all (by decide)

end LispCompiler
