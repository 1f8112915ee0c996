import Mathlib.Data.Set.Function
import LispCompiler.Proofs.Target.SimpleText

namespace LispCompiler.Identifier

section Folding

def fold (c : Char) : List Char :=
  if c = '_' then ['-'] else if c = '?' then ['-', 'q'] else [c]

theorem flatMap_encodeChar_fold (c : Char) : (fold c).flatMap encodeChar = encodeChar c := by
  unfold fold
  split
  · next underscore =>
    subst underscore
    decide
  · split
    · next question =>
      subst question
      decide
    · exact List.append_nil _

/-- A step of reading an identifier from its end. The digits in front of what has been read wait for
the underscore that they stand behind. -/
def readBack (c : Char) : List Char × List Char → List Char × List Char
  | (digits, name) =>
    if c.isDigit then (c :: digits, name)
    else if c = '_' then
      ([], (if digits = [] then '-' else Char.ofNat (Nat.ofDigitChars 10 digits 0)) :: name)
    else ([], c :: name)

def decode (identifier : List Char) : List Char :=
  (identifier.foldr readBack ([], [])).2

theorem readBack_digits {digits : List Char} (each : ∀ c ∈ digits, c.isDigit) (name : List Char) :
    digits.foldr readBack ([], name) = (digits, name) := by
  induction digits with
  | nil => rfl
  | cons c digits ih =>
    rw [List.forall_mem_cons] at each
    rw [List.foldr_cons, ih each.2, readBack, if_pos each.1]

theorem readBack_letter {c : Char} (letter : c.isAlpha) (name : List Char) :
    readBack c ([], name) = ([], c :: name) := by
  have range := toNat_of_isAlpha letter
  have noDigit : c.isDigit = false := by
    rw [Bool.eq_false_iff]
    intro digit
    have other := toNat_of_isDigit digit
    omega
  have noMark : c ≠ '_' := by
    intro underscore
    subst underscore
    exact absurd letter (by decide)
  simp [readBack, noDigit, noMark]

/-- No encoded character waits for what stands in front of it. -/
theorem readBack_encodeChar (c : Char) (name : List Char) :
    (encodeChar c).foldr readBack ([], name) = ([], fold c ++ name) := by
  by_cases underscore : c = '_'
  · subst underscore
    rfl
  by_cases hyphen : c = '-'
  · subst hyphen
    rfl
  by_cases question : c = '?'
  · subst question
    rfl
  have plain : fold c = [c] := by rw [fold, if_neg underscore, if_neg question]
  rw [plain]
  by_cases letter : c.isAlpha
  · have kept : encodeChar c = [c] := by simp [encodeChar, letter]
    rw [kept]
    exact readBack_letter letter name
  · have coded : encodeChar c = '_' :: Nat.toDigits 10 c.toNat := by
      simp [encodeChar, letter, underscore, hyphen, question]
    rw [coded, List.foldr_cons, readBack_digits (Numeral.toDigits_isDigit c.toNat)]
    have code : Nat.ofDigitChars 10 (Nat.toDigits 10 c.toNat) 0 = c.toNat := Nat.ofDigitChars_ten_toDigits
    simp [readBack, Nat.toDigits_ne_nil, code]

theorem readBack_encoded (name : List Char) :
    (name.flatMap encodeChar).foldr readBack ([], []) = ([], name.flatMap fold) := by
  induction name with
  | nil => rfl
  | cons c name ih =>
    rw [List.flatMap_cons, List.foldr_append, ih, readBack_encodeChar, List.flatMap_cons]

end Folding

section Names

def folded (name : String) : List Char :=
  match operatorAlias? name with
  | some operator => operator.toList
  | none => name.toList.flatMap fold

theorem operatorAlias?_letters {name operator : String} (known : operatorAlias? name = some operator) :
    operator.toList.flatMap encodeChar = operator.toList ∧
      operator.toList.flatMap fold = operator.toList := by
  unfold operatorAlias? at known
  split at known <;> cases known <;> decide

theorem toList_ofName (name : String) : (ofName name).toList = (folded name).flatMap encodeChar := by
  rw [ofName, folded]
  cases known : operatorAlias? name with
  | some operator => exact (operatorAlias?_letters known).1.symm
  | none =>
    rw [String.toList_ofList, List.flatMap_assoc]
    exact congrArg (name.toList.flatMap ·) (funext fun c => (flatMap_encodeChar_fold c).symm)

/-- The identifier of a name determines what it is folded to. -/
theorem decode_ofName (name : String) : decode (ofName name).toList = folded name := by
  rw [ofName, folded]
  cases known : operatorAlias? name with
  | some operator =>
    rcases operatorAlias?_letters known with ⟨kept, unfolded⟩
    have read := readBack_encoded operator.toList
    rw [kept, unfolded] at read
    exact congrArg Prod.snd read
  | none =>
    dsimp only
    rw [String.toList_ofList]
    exact congrArg Prod.snd (readBack_encoded name.toList)

theorem ofName_eq_iff {name other : String} : ofName name = ofName other ↔ folded name = folded other := by
  constructor
  · intro same
    rw [← decode_ofName, ← decode_ofName, same]
  · intro same
    apply String.toList_inj.mp
    rw [toList_ofName, toList_ofName, same]

end Names

section Plain

/-- A name in which nothing stands for a hyphen or a question mark but these themselves. -/
def Plain (name : List Char) : Prop :=
  '_' ∉ name ∧ ¬['-', 'q'] <:+: name

def join (c : Char) (name : List Char) : List Char :=
  if c = '-' ∧ name.head? = some 'q' then '?' :: name.tail else c :: name

theorem join_fold {c : Char} {name : List Char} (plain : Plain (c :: name)) :
    (fold c).foldr join name = c :: name := by
  rcases plain with ⟨noMark, apart⟩
  have kept : c ≠ '_' := (List.ne_of_not_mem_cons noMark).symm
  by_cases question : c = '?'
  · subst question
    simp [fold, join]
  · have alone : ¬(c = '-' ∧ name.head? = some 'q') := by
      intro pair
      rcases pair with ⟨rfl, next⟩
      rcases List.head?_eq_some_iff.mp next with ⟨rest, rfl⟩
      exact apart ⟨[], rest, rfl⟩
    rw [fold, if_neg kept, if_neg question]
    exact if_neg alone

theorem foldr_join {name : List Char} (plain : Plain name) : (name.flatMap fold).foldr join [] = name := by
  induction name with
  | nil => rfl
  | cons c name ih =>
    have others : Plain name :=
      ⟨fun member => plain.1 (List.mem_cons_of_mem c member),
        fun pair => plain.2 (pair.trans (List.suffix_cons c name).isInfix)⟩
    rw [List.flatMap_cons, List.foldr_append, ih others, join_fold plain]

theorem eq_of_ofName_eq {name other : String} (word : operatorAlias? name = none)
    (otherWord : operatorAlias? other = none) (plain : Plain name.toList) (otherPlain : Plain other.toList)
    (same : ofName name = ofName other) : name = other := by
  have alike := ofName_eq_iff.mp same
  simp only [folded, word, otherWord] at alike
  apply String.toList_inj.mp
  rw [← foldr_join plain, alike, foldr_join otherPlain]

end Plain

/-- A name that is not empty becomes an identifier. Names without an underscore and without `-q` that are
no operators become different identifiers. In general two names become the same one just where they are
folded alike. -/
theorem ofName_injOn :
    (∀ name, name ≠ "" → ∃ first rest, (ofName name).toList = first :: rest ∧
      (first.isAlpha ∨ first = '_') ∧ ∀ c ∈ rest, c.isAlphanum ∨ c = '_') ∧
    Set.InjOn ofName {name | operatorAlias? name = none ∧ '_' ∉ name.toList ∧
      ¬['-', 'q'] <:+: name.toList} ∧
    ∀ name other, ofName name = ofName other ↔ folded name = folded other := by
  refine ⟨?_, ?_, fun name other => ofName_eq_iff⟩
  · intro name filled
    have identifier := ofName_isIdentifier (fun _ => false) filled
    cases written : (ofName name).toList with
    | nil =>
      rw [written] at identifier
      cases identifier
    | cons first rest =>
      rw [written] at identifier
      simp only [isIdentifier, Bool.or_false, Bool.and_eq_true, Bool.or_eq_true, beq_iff_eq,
        List.all_eq_true] at identifier
      refine ⟨first, rest, rfl, identifier.1, fun c member => ?_⟩
      rcases identifier.2 c member with (letter | underscore) | digit
      · exact .inl (Bool.or_eq_true_iff.mpr (.inl letter))
      · exact .inr underscore
      · exact .inl (Bool.or_eq_true_iff.mpr (.inr digit))
  · intro name held other otherHeld same
    exact eq_of_ofName_eq held.1 otherHeld.1 held.2 otherHeld.2 same

theorem ofName_injOn_predicate :
    "λ?" ≠ "" ∧ (∃ first rest, (ofName "λ?").toList = first :: rest ∧
      (first.isAlpha ∨ first = '_') ∧ ∀ c ∈ rest, c.isAlphanum ∨ c = '_') ∧
    ofName "λ?" ≠ ofName "λ-" ∧ ofName "λ?" = ofName "λ-q" := by
  rcases ofName_injOn with ⟨identifier, injective, alike⟩
  refine ⟨by decide, identifier "λ?" (by decide), ?_, (alike _ _).mpr rfl⟩
  intro same
  have equal : "λ?" = "λ-" :=
    injective ⟨rfl, by decide, by decide⟩ ⟨rfl, by decide, by decide⟩ same
  exact absurd equal (by decide)

end LispCompiler.Identifier
