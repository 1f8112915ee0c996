import Mathlib.Data.List.Chain
import LispCompiler.Proofs.Target.OneLine

/-!
Where one JavaScript statement ends and the next begins, if each is written on a line of its own. A line
that begins like the rest of an expression is read as one, unless the line before it ends with a
semicolon. Main statements: no fragment ends with a semicolon, and those that begin so are the ones that
a bracket or a minus sign leads.
-/

namespace LispCompiler

def Double.isNegative : Double → Bool
  | finite negative _ => negative
  | infinite negative => negative
  | nan => false

namespace JavaScript

section Lines

def continues (c : Char) : Bool :=
  ['(', '[', '+', '-', '/', '\x60'].contains c

def continuesLine (line : String) : Bool :=
  line.toList.head?.any continues

def endsStatement (line : String) : Bool :=
  line.toList.getLast? == some ';'

def SeparateLines (line next : String) : Prop :=
  continuesLine next → endsStatement line

instance (line next : String) : Decidable (SeparateLines line next) :=
  inferInstanceAs (Decidable (_ → _))

def statementsFrom (line : String) : List String → List String
  | [] => [line]
  | next :: lines =>
    if continuesLine next && !endsStatement line then statementsFrom (line ++ "\n" ++ next) lines
    else line :: statementsFrom next lines

def statements : List String → List String
  | [] => []
  | line :: lines => statementsFrom line lines

theorem length_statementsFrom_le (line : String) (lines : List String) :
    (statementsFrom line lines).length ≤ lines.length + 1 := by
  induction lines generalizing line with
  | nil => exact Nat.le_refl _
  | cons next lines ih =>
    rw [statementsFrom]
    split
    · exact Nat.le_succ_of_le (ih _)
    · exact Nat.succ_le_succ (ih next)

theorem statementsFrom_eq_iff (line : String) (lines : List String) :
    statementsFrom line lines = line :: lines ↔ (line :: lines).IsChain SeparateLines := by
  induction lines generalizing line with
  | nil => simp [statementsFrom]
  | cons next lines ih =>
    rw [statementsFrom, List.isChain_cons_cons]
    split
    · next glued =>
      -- two lines became one, so there are fewer statements than lines
      rw [Bool.and_eq_true, Bool.not_eq_true'] at glued
      have fewer := length_statementsFrom_le (line ++ "\n" ++ next) lines
      constructor
      · intro same
        have lengths := congrArg List.length same
        simp only [List.length_cons] at lengths
        omega
      · intro chained
        have ended := chained.1 glued.1
        rw [glued.2] at ended
        cases ended
    · next apart =>
      have separate : SeparateLines line next := by
        intro continued
        simpa [continued] using apart
      rw [List.cons.injEq, ih next]
      simp [separate]

theorem statements_eq_iff (lines : List String) :
    statements lines = lines ↔ lines.IsChain SeparateLines := by
  cases lines with
  | nil => simp [statements]
  | cons line lines => exact statementsFrom_eq_iff line lines

/-- Where no line ends with a semicolon, no line but the first may begin like the rest of one. -/
theorem isChain_iff_of_unended {lines : List String} (unended : ∀ line ∈ lines, endsStatement line = false) :
    lines.IsChain SeparateLines ↔ ∀ line ∈ lines.tail, continuesLine line = false := by
  induction lines with
  | nil => simp
  | cons line lines ih =>
    rw [List.forall_mem_cons] at unended
    cases lines with
    | nil => simp
    | cons next lines =>
      have step : SeparateLines line next ↔ continuesLine next = false := by
        simp [SeparateLines, unended.1]
      rw [List.isChain_cons_cons, step, ih unended.2]
      simp only [List.tail_cons, List.forall_mem_cons]

end Lines

section Ends

variable {a b : String}

theorem endsStatement_append (filled : Filled b) : endsStatement (a ++ b) = endsStatement b := by
  rw [Filled.iff_toList] at filled
  rw [endsStatement, String.toList_append, List.getLast?_append, List.getLast?_eq_some_getLast filled,
    Option.some_or, endsStatement, List.getLast?_eq_some_getLast filled]

theorem endsStatement_simple (simple : ∀ c ∈ a.toList, isSimple c) : endsStatement a = false := by
  rw [endsStatement, beq_eq_false_iff_ne]
  intro last
  have semicolon := simple ';' (List.mem_of_getLast? last)
  exact absurd semicolon (by decide)

theorem endsStatement_mark {mark : String} (other : endsStatement mark = false)
    (filled : Filled mark) : endsStatement (a ++ mark) = false :=
  (endsStatement_append filled).trans other

theorem endsStatement_quote (text : String) : endsStatement (Quoted.quote text) = false := by
  rw [endsStatement, Quoted.toList_quote, ← List.cons_append, List.getLast?_concat]
  rfl

end Ends

section Starts

variable {a b : String}

theorem continuesLine_append (filled : Filled a) : continuesLine (a ++ b) = continuesLine a := by
  rw [Filled.iff_toList] at filled
  rw [continuesLine, String.toList_append, List.head?_append, List.head?_eq_some_head filled,
    Option.some_or, continuesLine, List.head?_eq_some_head filled]

theorem continuesLine_mark {mark : String} {begins : Bool} (marked : continuesLine mark = begins)
    (filled : Filled mark) : continuesLine (mark ++ a) = begins :=
  (continuesLine_append filled).trans marked

theorem continuesLine_guard (body binding handler : String) :
    continuesLine (guard body binding handler) := by
  have begun : ∀ {a b : String}, continuesLine a → continuesLine (a ++ b) := by
    intro a b begins
    refine continuesLine_mark begins fun missing => ?_
    subst missing
    cases begins
  -- the literals are too long to be moved together first, so the pieces behind the first are peeled off
  unfold guard
  iterate 6 apply begun
  decide

theorem continuesLine_led (begins : continuesLine b) :
    continuesLine (a ++ b) = (decide (a = "") || continuesLine a) := by
  by_cases missing : a = ""
  · subst missing
    rw [String.empty_append]
    simpa using begins
  · rw [continuesLine_append missing]
    simp [missing]

theorem continuesLine_front (calm : continuesLine b = false) : continuesLine (a ++ b) = continuesLine a := by
  by_cases missing : a = ""
  · subst missing
    rw [String.empty_append]
    exact calm
  · exact continuesLine_append missing

theorem continues_of_simple {c : Char} (simple : isSimple c) (noSign : c ≠ '-') : continues c = false := by
  rw [Bool.eq_false_iff]
  intro goesOn
  simp only [continues, List.contains_iff_mem, List.mem_cons, List.not_mem_nil, or_false] at goesOn
  rcases goesOn with rfl | rfl | rfl | rfl | rfl | rfl
  case inr.inr.inr.inl => exact noSign rfl
  all_goals cases simple

theorem head_continues {text : List Char} (none : ∀ c ∈ text, continues c = false) :
    text.head?.any continues = false := by
  cases text with
  | nil => rfl
  | cons c rest => exact none c List.mem_cons_self

theorem continues_of_isDigit {c : Char} (digit : c.isDigit) : continues c = false := by
  refine continues_of_simple (isSimple_of_isDigit digit) fun sign => ?_
  rw [sign] at digit
  exact absurd digit (by decide)

theorem continuesLine_quote (text : String) : continuesLine (Quoted.quote text) = false := by
  rw [continuesLine, Quoted.toList_quote]
  rfl

theorem continues_encodeChar (c : Char) : ∀ written ∈ Identifier.encodeChar c, continues written = false := by
  intro written member
  refine continues_of_simple (encodeChar_simple c written member) fun sign => ?_
  subst sign
  unfold Identifier.encodeChar at member
  split at member
  · next letter =>
    obtain rfl := List.mem_singleton.mp member
    exact absurd letter (by decide)
  · split at member
    · exact absurd member (by decide)
    · split at member
      · exact absurd member (by decide)
      · rcases List.mem_cons.mp member with underscore | digit
        · exact absurd underscore (by decide)
        · exact absurd (Numeral.toDigits_isDigit _ _ digit) (by decide)

theorem continuesLine_ofName (name : String) : continuesLine (Identifier.ofName name) = false := by
  unfold Identifier.ofName
  split
  · next operator found =>
    unfold Identifier.operatorAlias? at found
    split at found <;> cases found <;> decide
  · rw [continuesLine, String.toList_ofList]
    apply head_continues
    intro c member
    rcases List.mem_flatMap.mp member with ⟨source, _, written⟩
    exact continues_encodeChar source c written

theorem continuesLine_integer (value : Int64) :
    continuesLine (Target.integer value) = decide (value.toInt < 0) := by
  rw [continuesLine, Target.integer, Numeral.toList_toString]
  by_cases negative : value.toInt < 0
  · simp only [negative, if_true, decide_true]
    rfl
  · simp only [negative, if_false, decide_false, List.nil_append]
    exact head_continues fun c member => continues_of_isDigit (Numeral.toDigits_isDigit _ c member)

theorem head_continues_append {front rest : List Char} {c : Char}
    (none : ∀ d ∈ front, continues d = false) (mark : continues c = false) :
    (front ++ c :: rest).head?.any continues = false := by
  cases front with
  | nil => exact mark
  | cons d front => exact none d List.mem_cons_self

theorem head_digits {digits : Double.Digits} (each : ∀ c ∈ digits.text, c.isDigit) :
    digits.render.head?.any continues = false := by
  have calm : ∀ c ∈ digits.text, continues c = false := fun c member => continues_of_isDigit (each c member)
  have begun : ∀ count, ∀ c ∈ digits.text.take count, continues c = false :=
    fun count c member => calm c (List.mem_of_mem_take member)
  unfold Double.Digits.render
  split
  · unfold Double.Digits.positional
    split
    · rfl
    · dsimp only
      split
      · refine head_continues_append (List.forall_mem_append.mpr ⟨calm, ?_⟩) (by decide)
        intro c member
        rw [List.eq_of_mem_replicate member]
        decide
      · exact head_continues_append (begun _) (by decide)
  · refine head_continues_append (List.forall_mem_append.mpr ⟨begun 1, ?_⟩) (by decide)
    split
    · simp
    · refine List.forall_mem_cons.mpr ⟨by decide, fun c member => calm c (List.mem_of_mem_drop member)⟩

theorem continuesLine_float (value : Double) : continuesLine (Target.float value) = value.isNegative := by
  cases value with
  | finite negative rank =>
    rw [continuesLine, Target.float, Double.render, String.toList_ofList]
    cases negative with
    | true => rfl
    | false =>
      simp only [Double.sign, Bool.false_eq_true, if_false, List.nil_append, Double.isNegative]
      split
      · rfl
      · exact head_digits (shortest_isDigit rank)
  | infinite negative => cases negative <;> rfl
  | nan => rfl

end Starts

end JavaScript

namespace Code

open JavaScript

/-- Code that has no text: the name of a symbol without characters. -/
def blank : Code → Bool
  | reference name => name == ""
  | block function => function.blank
  | topLevel locals expr => locals.isEmpty && expr.blank
  | _ => false

def opens : Code → Bool
  | integer value => value.toInt < 0
  | float value => value.isNegative
  | array _ | parens _ | define _ _ | sequence _ | lambda _ _ _ _ | conditional _ _ _ | guard _ _ _ => true
  | call function _ => function.blank || function.opens
  | apply function _ => function.blank || function.opens
  | block function => function.opens
  | send receiver method _ =>
    if isName method.toList then receiver.opens else receiver.blank || receiver.opens
  | dynamicSend receiver _ _ => receiver.blank || receiver.opens
  | topLevel locals expr => locals.isEmpty && expr.opens
  | nil | bool _ | string _ | symbol _ | reference _ => false

theorem render_eq_empty (code : Code) : decide (code.render .javascript = "") = code.blank := by
  cases code with
  | reference name =>
    by_cases empty : name = ""
    · subst empty
      rfl
    · have filled : Identifier.ofName name ≠ "" := Filled.ofName empty
      simp [render, blank, filled, empty]
  | block function => exact render_eq_empty function
  | topLevel locals expr =>
    cases locals with
    | nil => exact render_eq_empty expr
    | cons name names =>
      exact decide_eq_false (Filled.append_left (Filled.append_right (by decide)))
  | nil => exact decide_eq_false (Filled.nil _)
  | integer value => exact decide_eq_false (Filled.integer value)
  | float value => exact decide_eq_false (Filled.float value)
  | bool value => exact decide_eq_false (Filled.bool value)
  | string text => exact decide_eq_false (Filled.string _ text)
  | symbol name => exact decide_eq_false (Filled.symbol _ name)
  | array items => exact decide_eq_false (Filled.append_right (by decide))
  | parens inner => exact decide_eq_false (Filled.append_right (by decide))
  | call function args => exact decide_eq_false (Filled.call _)
  | apply function list => exact decide_eq_false (Filled.apply _)
  | define name value => exact decide_eq_false (Filled.define _)
  | sequence exprs => exact decide_eq_false (Filled.sequence _)
  | lambda params rest locals body => exact decide_eq_false (Filled.lambda _)
  | conditional predicate thenArm elseArm => exact decide_eq_false Filled.conditional
  | send receiver method args => exact decide_eq_false (Filled.send _)
  | dynamicSend receiver message args => exact decide_eq_false (Filled.dynamicSend _)
  | guard body binding handler => exact decide_eq_false (Filled.guard _)

/-- Of the characters that an expression can go on with, fragments begin only with brackets and the
minus sign. -/
theorem continuesLine_render (code : Code) : continuesLine (code.render .javascript) = code.opens := by
  cases code with
  | nil => rfl
  | integer value => exact continuesLine_integer value
  | float value => exact continuesLine_float value
  | bool value => cases value <;> rfl
  | string text => exact continuesLine_quote text
  | symbol name =>
    simp only [opens, render, Target.symbol, JavaScript.symbol, String.append_assoc]
    exact continuesLine_mark (by decide) (by decide)
  | reference name => exact continuesLine_ofName name
  | array items =>
    simp only [opens, render, String.append_assoc]
    exact continuesLine_mark (by decide) (by decide)
  | parens inner =>
    simp only [opens, render, String.append_assoc]
    exact continuesLine_mark (by decide) (by decide)
  | call function args =>
    rw [opens, ← render_eq_empty, ← continuesLine_render function, render, Target.call, JavaScript.call]
    simp only [String.append_assoc]
    exact continuesLine_led (continuesLine_mark (by decide) (by decide))
  | apply function list =>
    rw [opens, ← render_eq_empty, ← continuesLine_render function, render, Target.apply, JavaScript.apply]
    simp only [String.append_assoc]
    exact continuesLine_led (continuesLine_mark (by decide) (by decide))
  | block function => exact continuesLine_render function
  | define name value =>
    simp only [opens, render, Target.define, JavaScript.define, String.append_assoc]
    exact continuesLine_mark (by decide) (by decide)
  | sequence exprs =>
    simp only [opens, render, Target.sequence, JavaScript.sequence, String.append_assoc]
    split
    · rfl
    · exact continuesLine_mark (by decide) (by decide)
  | lambda params rest locals body =>
    simp only [opens, render, Target.lambda, JavaScript.lambda, String.append_assoc]
    split
    · exact continuesLine_mark (by decide) (by decide)
    · exact continuesLine_mark (by decide) (by decide)
  | conditional predicate thenArm elseArm =>
    simp only [opens, render, Target.conditional, String.append_assoc]
    exact continuesLine_mark (by decide) (by decide)
  | send receiver method args =>
    rw [opens, ← render_eq_empty, ← continuesLine_render receiver, render, Target.send, JavaScript.send]
    split
    · simp only [String.append_assoc]
      exact continuesLine_front (continuesLine_mark (by decide) (by decide))
    · simp only [JavaScript.dynamicSend, String.append_assoc]
      exact continuesLine_led (continuesLine_mark (by decide) (by decide))
  | dynamicSend receiver message args =>
    rw [opens, ← render_eq_empty, ← continuesLine_render receiver, render, Target.dynamicSend,
      JavaScript.dynamicSend]
    simp only [String.append_assoc]
    exact continuesLine_led (continuesLine_mark (by decide) (by decide))
  | guard body binding handler => exact continuesLine_guard _ _ _
  | topLevel locals expr =>
    cases locals with
    | nil => exact continuesLine_render expr
    | cons name names =>
      simp only [opens, render, Target.topLevel, JavaScript.topLevel, List.map_cons, List.isEmpty_cons,
        Bool.false_and, Bool.false_eq_true, if_false, String.append_assoc]
      exact continuesLine_mark (by decide) (by decide)

theorem endsStatement_render (code : Code) : endsStatement (code.render .javascript) = false := by
  cases code with
  | nil => rfl
  | integer value => exact endsStatement_simple (toString_simple value.toInt)
  | float value => exact endsStatement_simple (render_simple value)
  | bool value => cases value <;> rfl
  | string text => exact endsStatement_quote text
  | reference name => exact endsStatement_simple (ofName_simple name)
  | block function => exact endsStatement_render function
  | sequence exprs =>
    simp only [render, Target.sequence, JavaScript.sequence]
    split
    · rfl
    · exact endsStatement_mark (by decide) (by decide)
  | lambda params rest locals body =>
    simp only [render, Target.lambda, JavaScript.lambda]
    split
    · exact endsStatement_mark (by decide) (by decide)
    · exact endsStatement_mark (by decide) (by decide)
  | send receiver method args =>
    simp only [render, Target.send, JavaScript.send]
    split
    · exact endsStatement_mark (by decide) (by decide)
    · exact endsStatement_mark (by decide) (by decide)
  | topLevel locals expr =>
    cases locals with
    | nil => exact endsStatement_render expr
    | cons name names =>
      -- behind the declarations there is a blank, whether code follows or not
      simp only [render, Target.topLevel, JavaScript.topLevel, List.map_cons, List.isEmpty_cons,
        Bool.false_eq_true, if_false]
      by_cases missing : expr.render .javascript = ""
      · rw [missing, String.append_empty]
        exact endsStatement_mark (by decide) (by decide)
      · rw [endsStatement_append missing]
        exact endsStatement_render expr
  | _ => exact endsStatement_mark (by decide) (by decide)

end Code

end LispCompiler
