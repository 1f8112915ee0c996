import LispCompiler.Proofs.Target.Code
import LispCompiler.Proofs.Target.SimpleText
import LispCompiler.Proofs.Text.Quoting

namespace LispCompiler

def isPrintable (c : Char) : Bool :=
  ' ' ≤ c && c != '\x7f'

def OneLine (text : String) : Prop :=
  text.toList.all isPrintable

instance (text : String) : Decidable (OneLine text) :=
  inferInstanceAs (Decidable (text.toList.all isPrintable = true))

theorem isPrintable_iff {c : Char} : isPrintable c ↔ 32 ≤ c.toNat ∧ c.toNat ≠ 127 := by
  have delete : c = '\x7f' ↔ c.toNat = 127 :=
    ⟨fun same => congrArg Char.toNat same, fun same => Char.ext (UInt32.toNat_inj.mp same)⟩
  simp only [isPrintable, Bool.and_eq_true, decide_eq_true_eq, bne_iff_ne, ne_eq, delete]
  exact Iff.rfl

theorem isPrintable_of_isAlphanum {c : Char} (letter : c.isAlphanum) : isPrintable c := by
  rw [isPrintable_iff]
  rcases Bool.or_eq_true_iff.mp letter with alpha | digit
  · have range := toNat_of_isAlpha alpha
    omega
  · have range := toNat_of_isDigit digit
    omega

theorem isPrintable_of_isSimple {c : Char} (simple : isSimple c) : isPrintable c := by
  rcases Bool.or_eq_true_iff.mp simple with letter | mark
  · exact isPrintable_of_isAlphanum letter
  · have marks : ['_', '.', '-', '?', '!', '=', '$'].all isPrintable := by decide
    exact List.all_eq_true.mp marks c (List.contains_iff_mem.mp mark)

theorem isPrintable_digitChar {digit : Nat} (bound : digit < 16) : isPrintable (Nat.digitChar digit) := by
  revert digit
  decide

theorem escapeChar_printable (c : Char) : (Quoted.escapeChar c).all isPrintable := by
  unfold Quoted.escapeChar
  split
  all_goals try decide
  split
  · next special =>
    simp only [Bool.or_eq_true, decide_eq_true_eq, beq_iff_eq] at special
    have small : c.toNat < 256 := by
      rcases special with control | rfl
      · exact Nat.lt_trans (show c.toNat < ' '.toNat from control) (by decide)
      · decide
    have high := isPrintable_digitChar (show c.toNat / 16 < 16 by omega)
    have low := isPrintable_digitChar (show c.toNat % 16 < 16 by omega)
    simp +decide [high, low]
  · next ordinary =>
    simp only [Bool.or_eq_true, decide_eq_true_eq, beq_iff_eq, not_or] at ordinary
    simp [isPrintable, Char.not_lt.mp ordinary.1, ordinary.2]

namespace OneLine

variable {a b c f name : String} {as : List String}

theorem iff_forall : OneLine a ↔ ∀ c ∈ a.toList, isPrintable c :=
  List.all_eq_true

@[simp]
theorem append_iff : OneLine (a ++ b) ↔ OneLine a ∧ OneLine b := by
  simp [OneLine]

theorem append (first : OneLine a) (second : OneLine b) : OneLine (a ++ b) :=
  append_iff.mpr ⟨first, second⟩

theorem of_simple (simple : ∀ c ∈ a.toList, isSimple c) : OneLine a :=
  iff_forall.mpr fun c member => isPrintable_of_isSimple (simple c member)

theorem intercalate {separator : String} (between : OneLine separator) (each : ∀ a ∈ as, OneLine a) :
    OneLine (separator.intercalate as) := by
  induction as with
  | nil => exact rfl
  | cons a as ih =>
    rw [List.forall_mem_cons] at each
    cases as with
    | nil => simpa using each.1
    | cons b as =>
      rw [String.intercalate_cons_cons]
      simp [each.1, between, ih each.2]

theorem commaList (each : ∀ a ∈ as, OneLine a) : OneLine (commaList as) :=
  intercalate (by decide) each

theorem ofName (name : String) : OneLine (Identifier.ofName name) :=
  of_simple (ofName_simple name)

theorem ofNames (sources : List String) : ∀ name ∈ sources.map Identifier.ofName, OneLine name :=
  List.forall_mem_map.mpr fun source _ => ofName source

theorem quote (text : String) : OneLine (Quoted.quote text) := by
  have inside : (Quoted.encode text.toList).all isPrintable := by
    rw [Quoted.encode, List.all_flatMap, List.all_eq_true]
    exact fun c _ => escapeChar_printable c
  simp +decide [OneLine, Quoted.quote, inside]

section Constructs

variable (target : Target)

theorem string (text : String) : OneLine (target.string text) := by
  cases target with
  | ruby =>
    have quoted := iff_forall.mp (quote text)
    simp only [OneLine, Target.string, Ruby.string, String.toList_ofList, List.all_flatMap,
      List.all_eq_true (p := fun c => (Ruby.escapeHash c).all isPrintable)]
    intro c member
    unfold Ruby.escapeHash
    split
    · decide
    · simpa using quoted c member
  | javascript => exact quote text

theorem symbol (name : String) : OneLine (target.symbol name) := by
  cases target with
  | ruby =>
    simp only [Target.symbol, Ruby.symbol]
    split
    · next method => simp +decide [of_simple (isMethodName_simple method)]
    · have text : OneLine (Ruby.string name) := string .ruby name
      simp +decide [text]
  | javascript => simp +decide [Target.symbol, JavaScript.symbol, quote name]

theorem nil : OneLine target.nil := by
  cases target <;> decide

theorem bool (value : Bool) : OneLine (Target.bool value) := by
  cases value <;> decide

theorem array (items : ∀ a ∈ as, OneLine a) : OneLine ("[" ++ LispCompiler.commaList as ++ "]") := by
  simp +decide [commaList items]

theorem parens (inner : OneLine a) : OneLine ("(" ++ a ++ ")") := by
  simp +decide [inner]

theorem call (function : OneLine f) (args : ∀ a ∈ as, OneLine a) : OneLine (target.call f as) := by
  have inside := commaList args
  cases target with
  | ruby => simp +decide [Target.call, Ruby.call, function, inside]
  | javascript => simp +decide [Target.call, JavaScript.call, function, inside]

theorem apply (function : OneLine f) (list : OneLine a) : OneLine (target.apply f a) := by
  cases target with
  | ruby => simp +decide [Target.apply, Ruby.apply, function, list]
  | javascript => simp +decide [Target.apply, JavaScript.apply, function, list]

theorem block (function : OneLine f) : OneLine (target.block f) := by
  cases target with
  | ruby => simp +decide [Target.block, Ruby.block, function]
  | javascript => exact function

theorem define (isName : OneLine name) (value : OneLine a) : OneLine (target.define name a) := by
  cases target with
  | ruby => simp +decide [Target.define, Ruby.define, isName, value]
  | javascript => simp +decide [Target.define, JavaScript.define, isName, value]

theorem sequence (exprs : ∀ a ∈ as, OneLine a) : OneLine (target.sequence as) := by
  cases target with
  | ruby => exact parens (intercalate (by decide) exprs)
  | javascript =>
    simp only [Target.sequence, JavaScript.sequence]
    split
    · decide
    · exact parens (commaList exprs)

theorem params {mark : String} {rest : Option String} (isMark : OneLine mark)
    (fixed : ∀ name ∈ as, OneLine name) (last : ∀ name ∈ rest, OneLine name) :
    OneLine (LispCompiler.commaList (as ++ rest.toList.map (mark ++ ·))) := by
  apply commaList
  refine List.forall_mem_append.mpr ⟨fixed, List.forall_mem_map.mpr ?_⟩
  intro name member
  exact append_iff.mpr ⟨isMark, last name (Option.mem_toList.mp member)⟩

theorem lambda {params locals : List String} {rest : Option String}
    (fixed : ∀ name ∈ params, OneLine name) (last : ∀ name ∈ rest, OneLine name)
    (bound : ∀ name ∈ locals, OneLine name) (body : OneLine a) :
    OneLine (target.lambda params rest locals a) := by
  cases target with
  | ruby =>
    have inside := OneLine.params (show OneLine "*" by decide) fixed last
    simp +decide [Target.lambda, Ruby.lambda, inside, body]
  | javascript =>
    have inside := OneLine.params (show OneLine "..." by decide) fixed last
    simp only [Target.lambda, JavaScript.lambda]
    split
    · simp +decide [inside, body]
    · simp +decide [inside, body, commaList bound]

theorem conditional (predicate : OneLine a) (thenArm : OneLine b) (elseArm : OneLine c) :
    OneLine (Target.conditional a b c) := by
  simp +decide [Target.conditional, predicate, thenArm, elseArm]

theorem dynamicSend (receiver : OneLine a) (message : OneLine b) (args : ∀ a ∈ as, OneLine a) :
    OneLine (target.dynamicSend a b as) := by
  cases target with
  | ruby =>
    have inside := commaList (List.forall_mem_cons.mpr ⟨message, args⟩)
    simp +decide [Target.dynamicSend, Ruby.dynamicSend, receiver, inside]
  | javascript =>
    simp +decide [Target.dynamicSend, JavaScript.dynamicSend, receiver, message, commaList args]

theorem send (receiver : OneLine a) (method : String) (args : ∀ a ∈ as, OneLine a) :
    OneLine (target.send a method as) := by
  have dynamic := dynamicSend target receiver (string target method) args
  cases target with
  | ruby =>
    simp only [Target.send, Ruby.send]
    split
    · next isName => simp +decide [receiver, of_simple (isMethodName_simple isName), commaList args]
    · exact dynamic
  | javascript =>
    simp only [Target.send, JavaScript.send]
    split
    · next isName => simp +decide [receiver, of_simple (isName_simple isName), commaList args]
    · exact dynamic

theorem guard (body : OneLine a) (binding : OneLine name) (handler : OneLine b) :
    OneLine (target.guard a name b) := by
  cases target with
  | ruby =>
    have opening : OneLine "begin; " := by decide
    have rescues : OneLine "; rescue => " := by decide
    have separator : OneLine "; " := by decide
    have closing : OneLine "; end" := by decide
    exact opening |>.append body |>.append rescues |>.append binding |>.append separator
      |>.append handler |>.append closing
  | javascript =>
    have opening : OneLine "(() => \x7b try \x7b return " := by decide
    have catches : OneLine "; \x7d catch (" := by decide
    have handles : OneLine ") \x7b return " := by decide
    have closing : OneLine "; \x7d \x7d)()" := by decide
    exact opening |>.append body |>.append catches |>.append binding |>.append handles
      |>.append handler |>.append closing

theorem topLevel (bound : ∀ name ∈ as, OneLine name) (expr : OneLine a) :
    OneLine (target.topLevel as a) := by
  cases target with
  | ruby => exact expr
  | javascript =>
    simp only [Target.topLevel, JavaScript.topLevel]
    split
    · exact expr
    · simp +decide [commaList bound, expr]

end Constructs

mutual

theorem render (target : Target) (code : Code) : OneLine (code.render target) := by
  cases code with
  | nil => exact nil target
  | integer value => exact of_simple (toString_simple value.toInt)
  | float value => exact of_simple (render_simple value)
  | bool value => exact bool value
  | string text => exact string target text
  | symbol name => exact symbol target name
  | reference name => exact ofName name
  | array items => exact array (renderAll target items)
  | parens inner => exact parens (render target inner)
  | call function args => exact call target (render target function) (renderAll target args)
  | apply function list => exact apply target (render target function) (render target list)
  | block function => exact block target (render target function)
  | define name value => exact define target (ofName name) (render target value)
  | sequence exprs => exact sequence target (renderAll target exprs)
  | lambda params rest locals body =>
    refine lambda target (ofNames params) ?_ (ofNames locals) (render target body)
    simpa using fun source _ => ofName source
  | conditional predicate thenArm elseArm =>
    exact conditional (render target predicate) (render target thenArm) (render target elseArm)
  | send receiver method args =>
    exact send target (render target receiver) method (renderAll target args)
  | dynamicSend receiver message args =>
    exact dynamicSend target (render target receiver) (render target message) (renderAll target args)
  | guard body binding handler =>
    exact guard target (render target body) (ofName binding) (render target handler)
  | topLevel locals expr => exact topLevel target (ofNames locals) (render target expr)

theorem renderAll (target : Target) (codes : List Code) :
    ∀ text ∈ Code.renderAll target codes, OneLine text := by
  cases codes with
  | nil => simp [Code.renderAll]
  | cons code codes =>
    exact List.forall_mem_cons.mpr ⟨render target code, renderAll target codes⟩

end

end OneLine

def Filled (text : String) : Prop :=
  text ≠ ""

instance (text : String) : Decidable (Filled text) :=
  inferInstanceAs (Decidable (text ≠ ""))

namespace Filled

variable {a b c : String} {as bs : List String}

theorem iff_toList : Filled a ↔ a.toList ≠ [] :=
  not_congr String.toList_eq_nil_iff.symm

theorem append_left (first : Filled a) : Filled (a ++ b) := by
  rw [iff_toList, String.toList_append] at *
  exact List.append_ne_nil_of_left_ne_nil first b.toList

theorem append_right (second : Filled b) : Filled (a ++ b) := by
  rw [iff_toList, String.toList_append] at *
  exact List.append_ne_nil_of_right_ne_nil a.toList second

theorem ofList {text : List Char} (some : text ≠ []) : Filled (String.ofList text) := by
  rwa [iff_toList, String.toList_ofList]

theorem quote (text : String) : Filled (Quoted.quote text) :=
  ofList (List.cons_ne_nil _ _)

theorem encodeChar_ne_nil (c : Char) : Identifier.encodeChar c ≠ [] := by
  unfold Identifier.encodeChar
  split
  · exact List.cons_ne_nil _ _
  · split
    · exact List.cons_ne_nil _ _
    · split
      · exact List.cons_ne_nil _ _
      · exact List.cons_ne_nil _ _

theorem ofName {name : String} (some : Filled name) : Filled (Identifier.ofName name) := by
  unfold Identifier.ofName
  split
  · next operator found =>
    unfold Identifier.operatorAlias? at found
    split at found <;> cases found <;> decide
  · apply ofList
    rw [iff_toList] at some
    cases chars : name.toList with
    | nil => exact absurd chars some
    | cons c rest => exact List.append_ne_nil_of_left_ne_nil (encodeChar_ne_nil c) _

theorem integer (value : Int64) : Filled (Target.integer value) := by
  rw [iff_toList, Target.integer, Numeral.toList_toString]
  exact List.append_ne_nil_of_right_ne_nil _ Nat.toDigits_ne_nil

theorem positional_ne_nil (digits : Double.Digits) : digits.positional ≠ [] := by
  unfold Double.Digits.positional
  split
  · exact List.cons_ne_nil _ _
  · dsimp only
    split
    · exact List.append_ne_nil_of_right_ne_nil _ (List.cons_ne_nil _ _)
    · exact List.append_ne_nil_of_right_ne_nil _ (List.cons_ne_nil _ _)

theorem float (value : Double) : Filled (Target.float value) := by
  cases value with
  | finite negative rank =>
    refine ofList (List.append_ne_nil_of_right_ne_nil _ ?_)
    split
    · exact List.cons_ne_nil _ _
    · unfold Double.Digits.render
      split
      · exact positional_ne_nil _
      · exact List.append_ne_nil_of_right_ne_nil _ (List.cons_ne_nil _ _)
  | infinite negative => exact ofList (List.append_ne_nil_of_right_ne_nil _ (List.cons_ne_nil _ _))
  | nan => decide

section Constructs

variable (target : Target)

theorem nil : Filled target.nil := by
  cases target <;> decide

theorem bool (value : Bool) : Filled (Target.bool value) := by
  cases value <;> decide

theorem string (text : String) : Filled (target.string text) := by
  cases target with
  | ruby => exact ofList (by simp [Quoted.quote, Ruby.escapeHash])
  | javascript => exact quote text

theorem symbol (name : String) : Filled (target.symbol name) := by
  cases target with
  | ruby =>
    simp only [Target.symbol, Ruby.symbol]
    split
    · exact append_left (by decide)
    · exact append_left (by decide)
  | javascript => exact append_right (by decide)

theorem literal (datum : Datum) : Filled (target.literal datum) := by
  cases datum with
  | list items =>
    rw [Target.literal]
    exact append_right (by decide)
  | symbol name => exact symbol target name
  | integer value => exact integer value
  | float value => exact float value
  | string text => exact string target text
  | bool value => exact bool value
  | nil => exact nil target

theorem call : Filled (target.call a as) := by
  cases target <;> exact append_right (by decide)

theorem apply : Filled (target.apply a b) := by
  cases target <;> exact append_right (by decide)

theorem block (function : Filled a) : Filled (target.block a) := by
  cases target with
  | ruby => exact append_right function
  | javascript => exact function

theorem define : Filled (target.define a b) := by
  cases target with
  | ruby => exact append_left (append_right (by decide))
  | javascript => exact append_right (by decide)

theorem sequence : Filled (target.sequence as) := by
  cases target with
  | ruby => exact append_right (by decide)
  | javascript =>
    simp only [Target.sequence, JavaScript.sequence]
    split
    · decide
    · exact append_right (by decide)

theorem lambda {rest : Option String} : Filled (target.lambda as rest bs a) := by
  cases target with
  | ruby => exact append_right (by decide)
  | javascript =>
    simp only [Target.lambda, JavaScript.lambda]
    split
    · exact append_right (by decide)
    · exact append_right (by decide)

theorem conditional : Filled (Target.conditional a b c) :=
  append_right (by decide)

theorem dynamicSend : Filled (target.dynamicSend a b as) := by
  cases target <;> exact append_right (by decide)

theorem send : Filled (target.send a b as) := by
  cases target with
  | ruby =>
    simp only [Target.send, Ruby.send]
    split
    · exact append_right (by decide)
    · exact dynamicSend .ruby
  | javascript =>
    simp only [Target.send, JavaScript.send]
    split
    · exact append_right (by decide)
    · exact dynamicSend .javascript

theorem guard : Filled (target.guard a b c) := by
  cases target <;> exact append_right (by decide)

theorem topLevel (expr : Filled a) : Filled (target.topLevel as a) := by
  cases target with
  | ruby => exact expr
  | javascript =>
    simp only [Target.topLevel, JavaScript.topLevel]
    split
    · exact expr
    · exact append_right expr

end Constructs

end Filled

end LispCompiler
