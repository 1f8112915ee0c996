import LispCompiler.Proofs.Text.CodeUnits

/-!
Arrays of strings in JSON, by the grammar of the format. Blanks may stand around brackets, commas and
strings, and a string is written by its UTF-16 code units. Main statement: the grammar is unambiguous, so
a text is an array of at most one list of strings.
-/

namespace LispCompiler

namespace Quoted

variable {raw : List Char}

theorem Denotes.endsAtQuote {units : List Nat} (denotes : Denotes raw units) : Token.EndsAtQuote raw := by
  induction denotes with
  | nil => exact Token.endsAtQuote_nil
  | cons part rest ih => exact part.endsAtQuote.mpr ih

theorem Denotes.unique {text other : List Char} (denotes : Denotes raw (Utf16.ofText text))
    (denotesOther : Denotes raw (Utf16.ofText other)) : text = other :=
  Except.ok.inj ((decode_of_denotes denotes).symm.trans (decode_of_denotes denotesOther))

theorem denotes_encode (text : List Char) : Denotes (encode text) (Utf16.ofText text) :=
  denotes_of_decode (Token.splitQuoted_endsAtQuote (Token.splitQuoted_encode text [])) (decode_encode text)

end Quoted

namespace Json

def isBlank (c : Char) : Bool :=
  c == ' ' || c == '\t' || c == '\n' || c == '\r'

def Blanks (text : List Char) : Prop :=
  ∀ c ∈ text, isBlank c

inductive IsString : List Char → String → Prop
  | quoted {raw : List Char} {text : String} (denotes : Quoted.Denotes raw (Utf16.ofText text.toList)) :
      IsString ('"' :: (raw ++ ['"'])) text

inductive IsElement : List Char → String → Prop
  | intro {before item behind : List Char} {text : String} (blanksBefore : Blanks before)
      (isString : IsString item text) (blanksBehind : Blanks behind) :
      IsElement (before ++ (item ++ behind)) text

inductive AreElements : List Char → List String → Prop
  | single {part : List Char} {text : String} (element : IsElement part text) : AreElements part [text]
  | cons {part rest : List Char} {text : String} {texts : List String} (element : IsElement part text)
      (others : AreElements rest texts) : AreElements (part ++ ',' :: rest) (text :: texts)

inductive IsArray : List Char → List String → Prop
  | empty {before inside behind : List Char} (blanksBefore : Blanks before) (blanksInside : Blanks inside)
      (blanksBehind : Blanks behind) : IsArray (before ++ '[' :: (inside ++ ']' :: behind)) []
  | filled {before inside behind : List Char} {texts : List String} (blanksBefore : Blanks before)
      (elements : AreElements inside texts) (blanksBehind : Blanks behind) :
      IsArray (before ++ '[' :: (inside ++ ']' :: behind)) texts

section Unique

variable {before part rest other behind : List Char} {mark otherMark : Char} {text otherText : String}

theorem dropWhile_blanks (blanks : Blanks before) (visible : isBlank mark = false) :
    (before ++ mark :: rest).dropWhile isBlank = mark :: rest := by
  rw [List.dropWhile_append_of_pos blanks, List.dropWhile_cons_of_neg (by simp [visible])]

theorem Blanks.unique (blanks : Blanks before) (blanksOther : Blanks other)
    (visible : isBlank mark = false) (visibleOther : isBlank otherMark = false)
    (same : before ++ mark :: rest = other ++ otherMark :: behind) : mark = otherMark ∧ rest = behind := by
  have first := calc
    mark :: rest = (before ++ mark :: rest).dropWhile isBlank := (dropWhile_blanks blanks visible).symm
    _ = (other ++ otherMark :: behind).dropWhile isBlank := by rw [same]
    _ = otherMark :: behind := dropWhile_blanks blanksOther visibleOther
  exact List.cons.inj first

theorem IsString.unique (isString : IsString part text) (isOther : IsString other otherText)
    (same : part ++ rest = other ++ behind) : text = otherText ∧ rest = behind := by
  cases isString with
  | @quoted raw _ denotes =>
    cases isOther with
    | @quoted otherRaw _ denotesOther =>
      simp only [List.cons_append, List.cons.injEq, true_and, List.append_assoc, List.nil_append] at same
      rcases denotes.endsAtQuote.unique denotesOther.endsAtQuote same with ⟨rfl, after⟩
      exact ⟨String.toList_inj.mp (denotes.unique denotesOther), after⟩

theorem IsString.first (isString : IsString part text) : ∃ inside, part = '"' :: inside := by
  cases isString with
  | quoted denotes => exact ⟨_, rfl⟩

/-- A string ends by itself, so it is known from what a mark follows. -/
theorem IsElement.unique (element : IsElement part text) (isOther : IsElement other otherText)
    (visible : isBlank mark = false) (visibleOther : isBlank otherMark = false)
    (same : part ++ mark :: rest = other ++ otherMark :: behind) :
    text = otherText ∧ mark = otherMark ∧ rest = behind := by
  cases element with
  | @intro before item after _ blanks isString blanksAfter =>
    cases isOther with
    | @intro otherBefore otherItem otherAfter _ otherBlanks otherString otherBlanksAfter =>
      rcases isString.first with ⟨inside, rfl⟩
      rcases otherString.first with ⟨otherInside, rfl⟩
      simp only [List.append_assoc, List.cons_append] at same
      have strings := (blanks.unique otherBlanks (by decide) (by decide) same).2
      rcases isString.unique otherString (congrArg ('"' :: ·) strings) with ⟨texts, marks⟩
      exact ⟨texts, blanksAfter.unique otherBlanksAfter visible visibleOther marks⟩

variable {texts otherTexts : List String}

theorem AreElements.unique (elements : AreElements part texts) (areOther : AreElements other otherTexts)
    (same : part ++ ']' :: rest = other ++ ']' :: behind) : texts = otherTexts := by
  -- Where one list goes on, a comma stands in the place of the bracket that ends the other.
  induction elements generalizing other otherTexts with
  | single element =>
    cases areOther with
    | single isOther => rw [(element.unique isOther (by decide) (by decide) same).1]
    | cons isOther others =>
      rw [List.append_assoc, List.cons_append] at same
      exact absurd (element.unique isOther (by decide) (by decide) same).2.1 (by decide)
  | cons element others ih =>
    cases areOther with
    | single isOther =>
      rw [List.append_assoc, List.cons_append] at same
      exact absurd (element.unique isOther (by decide) (by decide) same).2.1 (by decide)
    | cons isOther otherElements =>
      rw [List.append_assoc, List.append_assoc, List.cons_append, List.cons_append] at same
      rcases element.unique isOther (by decide) (by decide) same with ⟨rfl, -, remaining⟩
      rw [ih otherElements remaining]

theorem IsElement.first (element : IsElement part text) :
    ∃ before inside, part = before ++ '"' :: inside ∧ Blanks before := by
  cases element with
  | intro blanks isString blanksAfter =>
    rcases isString.first with ⟨inside, rfl⟩
    exact ⟨_, _, rfl, blanks⟩

theorem AreElements.first (elements : AreElements part texts) :
    ∃ before inside, part = before ++ '"' :: inside ∧ Blanks before := by
  cases elements with
  | single element => exact element.first
  | cons element others =>
    rcases element.first with ⟨before, inside, rfl, blanks⟩
    exact ⟨before, _, List.append_assoc .., blanks⟩

theorem AreElements.ne_blanks {inside : List Char} (elements : AreElements part texts)
    (blanks : Blanks inside) : inside ++ ']' :: rest ≠ part ++ ']' :: behind := by
  intro same
  rcases elements.first with ⟨before, after, rfl, blanksBefore⟩
  rw [List.append_assoc] at same
  exact absurd (blanks.unique blanksBefore (by decide) (by decide) same).1 (by decide)

theorem IsArray.unique (isArray : IsArray part texts) (isOther : IsArray part otherTexts) :
    texts = otherTexts := by
  generalize same : part = other at isOther
  cases isArray with
  | empty blanks blanksInside blanksBehind =>
    cases isOther with
    | empty => rfl
    | filled otherBlanks elements =>
      have inside := (blanks.unique otherBlanks (by decide) (by decide) same).2
      exact absurd inside (elements.ne_blanks blanksInside)
  | filled blanks elements blanksBehind =>
    cases isOther with
    | empty otherBlanks blanksInside =>
      have inside := (blanks.unique otherBlanks (by decide) (by decide) same).2
      exact absurd inside.symm (elements.ne_blanks blanksInside)
    | filled otherBlanks otherElements =>
      have inside := (blanks.unique otherBlanks (by decide) (by decide) same).2
      exact elements.unique otherElements inside

end Unique

end Json

end LispCompiler
