import LispCompiler.Proofs.Target.Code
import LispCompiler.Proofs.Target.SimpleText
import LispCompiler.Proofs.Text.Quoting

namespace LispCompiler

namespace Nesting

inductive Mode where
  | code
  | literal
  | escaped
  deriving DecidableEq, Repr

structure Scan where
  mode : Mode
  closers : List Char
  deriving DecidableEq, Repr

def Scan.start : Scan :=
  ⟨.code, []⟩

def closer? : Char → Option Char
  | '(' => some ')'
  | '[' => some ']'
  | '\x7b' => some '\x7d'
  | _ => none

def isCloser (c : Char) : Bool :=
  c == ')' || c == ']' || c == '\x7d'

def close (c : Char) : List Char → Option Scan
  | [] => none
  | expected :: outer => if c = expected then some ⟨.code, outer⟩ else none

def next (scan : Scan) (c : Char) : Option Scan :=
  match scan.mode with
  | .escaped => some { scan with mode := .literal }
  | .literal =>
    if c = '"' then some { scan with mode := .code }
    else if c = '\\' then some { scan with mode := .escaped }
    else some scan
  | .code =>
    if c = '"' then some { scan with mode := .literal }
    else
      match closer? c with
      | some closer => some { scan with closers := closer :: scan.closers }
      | none => if isCloser c then close c scan.closers else some scan

def scan (text : List Char) (start : Scan) : Option Scan :=
  text.foldlM next start

def Balanced (fragment : String) : Prop :=
  scan fragment.toList .start = some .start

instance (fragment : String) : Decidable (Balanced fragment) :=
  inferInstanceAs (Decidable (_ = _))

variable {closers : List Char}

@[simp]
theorem scan_nil (start : Scan) : scan [] start = some start :=
  rfl

@[simp]
theorem scan_cons (c : Char) (text : List Char) (start : Scan) :
    scan (c :: text) start = (next start c).bind (scan text) :=
  rfl

@[simp]
theorem scan_append (first second : List Char) (start : Scan) :
    scan (first ++ second) start = (scan first start).bind (scan second) :=
  List.foldlM_append

/-- In code that waits for the brackets `before`, the text leaves the brackets `after` open. -/
def Shifts (text : String) (before after : List Char) : Prop :=
  ∀ outer, scan text.toList ⟨.code, before ++ outer⟩ = some ⟨.code, after ++ outer⟩

abbrev Neutral (text : String) : Prop :=
  Shifts text [] []

theorem Shifts.append {first second : String} {before between after : List Char}
    (left : Shifts first before between) (right : Shifts second between after) :
    Shifts (first ++ second) before after := by
  intro outer
  rw [String.toList_append, scan_append, left outer, Option.bind_some, right outer]

theorem Shifts.under {text : String} (neutral : Neutral text) (before : List Char) :
    Shifts text before before :=
  fun outer => neutral (before ++ outer)

theorem Shifts.balanced {text : String} (neutral : Neutral text) : Balanced text :=
  neutral []

theorem Shifts.intercalate {separator : String} {parts : List String} (between : Neutral separator)
    (each : ∀ part ∈ parts, Neutral part) : Neutral (separator.intercalate parts) := by
  induction parts with
  | nil => exact fun _ => rfl
  | cons part parts ih =>
    rw [List.forall_mem_cons] at each
    cases parts with
    | nil => simpa using each.1
    | cons next parts =>
      rw [String.intercalate_cons_cons]
      exact (each.1.append between).append (ih each.2)

def isPlain (c : Char) : Bool :=
  c != '"' && (closer? c).isNone && !isCloser c

theorem next_plain {c : Char} (plain : isPlain c) :
    next ⟨.code, closers⟩ c = some ⟨.code, closers⟩ := by
  simp only [isPlain, Bool.and_eq_true, bne_iff_ne, Option.isNone_iff_eq_none,
    Bool.not_eq_true'] at plain
  rcases plain with ⟨⟨noQuote, noOpener⟩, noCloser⟩
  simp [next, noQuote, noOpener, noCloser]

theorem scan_plain {text : List Char} (plain : ∀ c ∈ text, isPlain c) :
    scan text ⟨.code, closers⟩ = some ⟨.code, closers⟩ := by
  induction text with
  | nil => rfl
  | cons c text ih =>
    rw [List.forall_mem_cons] at plain
    rw [scan_cons, next_plain plain.1, Option.bind_some, ih plain.2]

theorem neutral_of_plain {text : String} (plain : ∀ c ∈ text.toList, isPlain c) : Neutral text :=
  fun _ => scan_plain plain

section Literal

theorem scan_escapeHash (c : Char) (start : Scan) : scan (Ruby.escapeHash c) start = next start c := by
  unfold Ruby.escapeHash
  split
  · next hash =>
    obtain rfl := beq_iff_eq.mp hash
    rcases start with ⟨mode, closers⟩
    cases mode <;> rfl
  · rw [scan_cons]
    cases next start c <;> rfl

theorem scan_flatMap_escapeHash (text : List Char) (start : Scan) :
    scan (text.flatMap Ruby.escapeHash) start = scan text start := by
  induction text generalizing start with
  | nil => rfl
  | cons c text ih =>
    rw [List.flatMap_cons, scan_append, scan_escapeHash, scan_cons]
    congr 1
    funext later
    exact ih later

theorem scan_escaped {c : Char} {written : List Char} (escaped : Quoted.Escaped c written) :
    scan written ⟨.literal, closers⟩ = some ⟨.literal, closers⟩ := by
  cases escaped with
  | short means => simp [next]
  | unit small =>
    have high := Quoted.digitChar_ne_mark (show c.toNat / 16 < 16 by omega)
    have low := Quoted.digitChar_ne_mark (show c.toNat % 16 < 16 by omega)
    simp [next, high, low]
  | raw _ noQuote noBackslash => simp [next, noQuote, noBackslash]

theorem scan_encode (text : List Char) :
    scan (Quoted.encode text) ⟨.literal, closers⟩ = some ⟨.literal, closers⟩ := by
  induction text with
  | nil => rfl
  | cons c text ih =>
    rw [Quoted.encode_cons, scan_append, scan_escaped (Quoted.escapeChar_escaped c)]
    exact ih

theorem neutral_quote (text : String) : Neutral (Quoted.quote text) := by
  intro outer
  simp [Quoted.quote, next, scan_encode]

theorem neutral_string (target : Target) (text : String) : Neutral (target.string text) := by
  cases target with
  | ruby =>
    intro outer
    simp only [Target.string, Ruby.string, String.toList_ofList, scan_flatMap_escapeHash]
    exact neutral_quote text outer
  | javascript => exact neutral_quote text

end Literal

theorem isPlain_of_isSimple {c : Char} (simple : isSimple c) : isPlain c := by
  have differs : ∀ other : Char, isSimple other = false → c ≠ other := by
    rintro other noSimple rfl
    simp [simple] at noSimple
  have noOpener : closer? c = none := by
    unfold closer?
    split
    · exact absurd rfl (differs '(' (by decide))
    · exact absurd rfl (differs '[' (by decide))
    · exact absurd rfl (differs '\x7b' (by decide))
    · rfl
  rw [isPlain, noOpener]
  simp (disch := decide) [isCloser, differs]

theorem neutral_of_simple {text : String} (simple : ∀ c ∈ text.toList, isSimple c) : Neutral text :=
  neutral_of_plain fun c member => isPlain_of_isSimple (simple c member)

theorem neutral_ofName (name : String) : Neutral (Identifier.ofName name) :=
  neutral_of_simple (ofName_simple name)

theorem neutral_names (sources : List String) :
    ∀ name ∈ sources.map Identifier.ofName, Neutral name := by
  intro name member
  rcases List.mem_map.mp member with ⟨source, _, rfl⟩
  exact neutral_ofName source

theorem openParen : Shifts "(" [] [')'] :=
  fun _ => rfl

theorem closeParen : Shifts ")" [')'] [] :=
  fun _ => rfl

theorem neutral_symbol (target : Target) (name : String) : Neutral (target.symbol name) := by
  cases target with
  | ruby =>
    have colon : Neutral ":" := fun _ => rfl
    simp only [Target.symbol, Ruby.symbol]
    split
    · next method => exact colon.append (neutral_of_simple (isMethodName_simple method))
    · exact colon.append (neutral_string .ruby name)
  | javascript =>
    have opening : Shifts "Symbol.for(" [] [')'] := fun _ => rfl
    exact opening |>.append ((neutral_quote name).under _) |>.append closeParen

theorem neutral_nil (target : Target) : Neutral target.nil := by
  cases target <;> exact fun _ => rfl

theorem neutral_bool (value : Bool) : Neutral (Target.bool value) := by
  cases value <;> exact fun _ => rfl

section Construct

variable (target : Target) {a b c f name : String} {as names : List String}

theorem neutral_commaList (each : ∀ a ∈ as, Neutral a) : Neutral (commaList as) :=
  Shifts.intercalate (fun _ => rfl) each

theorem neutral_parens (inner : Neutral a) : Neutral ("(" ++ a ++ ")") :=
  openParen |>.append (inner.under _) |>.append closeParen

theorem neutral_array (items : ∀ a ∈ as, Neutral a) : Neutral ("[" ++ commaList as ++ "]") := by
  have opening : Shifts "[" [] [']'] := fun _ => rfl
  have closing : Shifts "]" [']'] [] := fun _ => rfl
  exact opening |>.append ((neutral_commaList items).under _) |>.append closing

theorem neutral_call (function : Neutral f) (args : ∀ a ∈ as, Neutral a) :
    Neutral (target.call f as) := by
  have inside := (neutral_commaList args).under [')']
  cases target with
  | ruby =>
    have opening : Shifts ".(" [] [')'] := fun _ => rfl
    exact function |>.append opening |>.append inside |>.append closeParen
  | javascript => exact function |>.append openParen |>.append inside |>.append closeParen

theorem neutral_apply (function : Neutral f) (list : Neutral a) : Neutral (target.apply f a) := by
  cases target with
  | ruby =>
    have opening : Shifts ".(*" [] [')'] := fun _ => rfl
    exact function |>.append opening |>.append (list.under _) |>.append closeParen
  | javascript =>
    have opening : Shifts "(..." [] [')'] := fun _ => rfl
    exact function |>.append opening |>.append (list.under _) |>.append closeParen

theorem neutral_block (function : Neutral f) : Neutral (target.block f) := by
  cases target with
  | ruby =>
    have ampersand : Neutral "&" := fun _ => rfl
    exact ampersand.append function
  | javascript => exact function

theorem neutral_define (isName : Neutral name) (value : Neutral a) :
    Neutral (target.define name a) := by
  have assigns : Neutral " = " := fun _ => rfl
  cases target with
  | ruby => exact isName |>.append assigns |>.append value
  | javascript =>
    exact openParen |>.append (isName.under _) |>.append (assigns.under _)
      |>.append (value.under _) |>.append closeParen

theorem neutral_sequence (exprs : ∀ a ∈ as, Neutral a) : Neutral (target.sequence as) := by
  cases target with
  | ruby =>
    have separator : Neutral "; " := fun _ => rfl
    exact neutral_parens (separator.intercalate exprs)
  | javascript =>
    simp only [Target.sequence, JavaScript.sequence]
    split
    · exact fun _ => rfl
    · exact neutral_parens (neutral_commaList exprs)

theorem neutral_params {mark : String} {rest : Option String} (isMark : Neutral mark)
    (fixed : ∀ name ∈ names, Neutral name) (last : ∀ name ∈ rest, Neutral name) :
    Neutral (commaList (names ++ rest.toList.map (mark ++ ·))) := by
  apply neutral_commaList
  refine List.forall_mem_append.mpr ⟨fixed, ?_⟩
  intro name member
  rcases List.mem_map.mp member with ⟨source, present, rfl⟩
  exact isMark.append (last source (Option.mem_toList.mp present))

theorem neutral_lambda {params locals : List String} {rest : Option String}
    (fixed : ∀ name ∈ params, Neutral name) (last : ∀ name ∈ rest, Neutral name)
    (bound : ∀ name ∈ locals, Neutral name) (body : Neutral a) :
    Neutral (target.lambda params rest locals a) := by
  cases target with
  | ruby =>
    have star : Neutral "*" := fun _ => rfl
    have inside := neutral_params star fixed last
    have opening : Shifts "->(" [] [')'] := fun _ => rfl
    have enters : Shifts ") \x7b " [')'] ['\x7d'] := fun _ => rfl
    have closing : Shifts " \x7d" ['\x7d'] [] := fun _ => rfl
    exact opening |>.append (inside.under _) |>.append enters |>.append (body.under _)
      |>.append closing
  | javascript =>
    have dots : Neutral "..." := fun _ => rfl
    have inside := neutral_params dots fixed last
    have opening : Shifts "((" [] [')', ')'] := fun _ => rfl
    simp only [Target.lambda, JavaScript.lambda]
    split
    · have arrow : Shifts ") => " [')', ')'] [')'] := fun _ => rfl
      exact opening |>.append (inside.under _) |>.append arrow |>.append (body.under _)
        |>.append closeParen
    · have enters : Shifts ") => \x7b let " [')', ')'] ['\x7d', ')'] := fun _ => rfl
      have returns : Neutral "; return " := fun _ => rfl
      have closing : Shifts "; \x7d)" ['\x7d', ')'] [] := fun _ => rfl
      exact opening |>.append (inside.under _) |>.append enters
        |>.append ((neutral_commaList bound).under _) |>.append (returns.under _)
        |>.append (body.under _) |>.append closing

theorem neutral_conditional (predicate : Neutral a) (thenArm : Neutral b) (elseArm : Neutral c) :
    Neutral (Target.conditional a b c) := by
  have question : Neutral " ? " := fun _ => rfl
  have colon : Neutral " : " := fun _ => rfl
  exact openParen |>.append (predicate.under _) |>.append (question.under _)
    |>.append (thenArm.under _) |>.append (colon.under _) |>.append (elseArm.under _)
    |>.append closeParen

theorem neutral_dynamicSend (receiver : Neutral a) (message : Neutral b)
    (args : ∀ a ∈ as, Neutral a) : Neutral (target.dynamicSend a b as) := by
  cases target with
  | ruby =>
    have inside := neutral_commaList (List.forall_mem_cons.mpr ⟨message, args⟩)
    have opening : Shifts ".public_send(" [] [')'] := fun _ => rfl
    exact receiver |>.append opening |>.append (inside.under _) |>.append closeParen
  | javascript =>
    have opening : Shifts "[" [] [']'] := fun _ => rfl
    have between : Shifts "](" [']'] [')'] := fun _ => rfl
    exact receiver |>.append opening |>.append (message.under _) |>.append between
      |>.append ((neutral_commaList args).under _) |>.append closeParen

theorem neutral_method {method : String} (receiver : Neutral a) (isMethod : Neutral method)
    (args : ∀ a ∈ as, Neutral a) :
    Neutral (a ++ "." ++ method ++ "(" ++ commaList as ++ ")") := by
  have dot : Neutral "." := fun _ => rfl
  exact receiver |>.append dot |>.append isMethod |>.append openParen
    |>.append ((neutral_commaList args).under _) |>.append closeParen

theorem neutral_send (receiver : Neutral a) (method : String) (args : ∀ a ∈ as, Neutral a) :
    Neutral (target.send a method as) := by
  have dynamic := neutral_dynamicSend target receiver (neutral_string target method) args
  cases target with
  | ruby =>
    simp only [Target.send, Ruby.send]
    split
    · next name => exact neutral_method receiver (neutral_of_simple (isMethodName_simple name)) args
    · exact dynamic
  | javascript =>
    simp only [Target.send, JavaScript.send]
    split
    · next name => exact neutral_method receiver (neutral_of_simple (isName_simple name)) args
    · exact dynamic

theorem neutral_guard (body : Neutral a) (binding : Neutral name) (handler : Neutral b) :
    Neutral (target.guard a name b) := by
  cases target with
  | ruby =>
    have opening : Neutral "begin; " := fun _ => rfl
    have rescues : Neutral "; rescue => " := fun _ => rfl
    have separator : Neutral "; " := fun _ => rfl
    have closing : Neutral "; end" := fun _ => rfl
    exact opening |>.append body |>.append rescues |>.append binding |>.append separator
      |>.append handler |>.append closing
  | javascript =>
    have opening : Shifts "(() => \x7b try \x7b return " [] ['\x7d', '\x7d', ')'] := fun _ => rfl
    have catches : Shifts "; \x7d catch (" ['\x7d', '\x7d', ')'] [')', '\x7d', ')'] := fun _ => rfl
    have handles : Shifts ") \x7b return " [')', '\x7d', ')'] ['\x7d', '\x7d', ')'] := fun _ => rfl
    have closing : Shifts "; \x7d \x7d)()" ['\x7d', '\x7d', ')'] [] := fun _ => rfl
    exact opening |>.append (body.under _) |>.append catches |>.append (binding.under _)
      |>.append handles |>.append (handler.under _) |>.append closing

theorem neutral_topLevel (bound : ∀ name ∈ names, Neutral name) (expr : Neutral a) :
    Neutral (target.topLevel names a) := by
  cases target with
  | ruby => exact expr
  | javascript =>
    simp only [Target.topLevel, JavaScript.topLevel]
    split
    · exact expr
    · have declares : Neutral "var " := fun _ => rfl
      have separator : Neutral "; " := fun _ => rfl
      exact declares |>.append (neutral_commaList bound) |>.append separator |>.append expr

end Construct

mutual

theorem neutral_render (target : Target) (code : Code) : Neutral (code.render target) := by
  cases code with
  | nil => exact neutral_nil target
  | integer value => exact neutral_of_simple (toString_simple value.toInt)
  | float value => exact neutral_of_simple (render_simple value)
  | bool value => exact neutral_bool value
  | string text => exact neutral_string target text
  | symbol name => exact neutral_symbol target name
  | reference name => exact neutral_ofName name
  | array items => exact neutral_array (neutral_renderAll target items)
  | parens inner => exact neutral_parens (neutral_render target inner)
  | call function args =>
    exact neutral_call target (neutral_render target function) (neutral_renderAll target args)
  | apply function list =>
    exact neutral_apply target (neutral_render target function) (neutral_render target list)
  | block function => exact neutral_block target (neutral_render target function)
  | define name value =>
    exact neutral_define target (neutral_ofName name) (neutral_render target value)
  | sequence exprs => exact neutral_sequence target (neutral_renderAll target exprs)
  | lambda params rest locals body =>
    refine neutral_lambda target (neutral_names params) ?_ (neutral_names locals)
      (neutral_render target body)
    simpa using fun source _ => neutral_ofName source
  | conditional predicate thenArm elseArm =>
    exact neutral_conditional (neutral_render target predicate) (neutral_render target thenArm)
      (neutral_render target elseArm)
  | send receiver method args =>
    exact neutral_send target (neutral_render target receiver) method (neutral_renderAll target args)
  | dynamicSend receiver message args =>
    exact neutral_dynamicSend target (neutral_render target receiver)
      (neutral_render target message) (neutral_renderAll target args)
  | guard body binding handler =>
    exact neutral_guard target (neutral_render target body) (neutral_ofName binding)
      (neutral_render target handler)
  | topLevel locals expr =>
    exact neutral_topLevel target (neutral_names locals) (neutral_render target expr)

theorem neutral_renderAll (target : Target) (codes : List Code) :
    ∀ text ∈ Code.renderAll target codes, Neutral text := by
  cases codes with
  | nil => simp [Code.renderAll]
  | cons code codes =>
    exact List.forall_mem_cons.mpr ⟨neutral_render target code, neutral_renderAll target codes⟩

end

theorem balanced_render (target : Target) (code : Code) : Balanced (code.render target) :=
  (neutral_render target code).balanced

end Nesting

end LispCompiler
