import LispCompiler.Compiler.Shape
import LispCompiler.Target.Fragment

/-!
Fragments as trees of constructs, before a target is chosen. Every fragment that a compiler emits is
the rendering of such a tree.
-/

namespace LispCompiler

/-- A tree of constructs. Names are those of the symbols that they come from. -/
inductive Code where
  | nil
  | integer (value : Int64)
  | float (value : Double)
  | bool (value : Bool)
  | string (text : String)
  | symbol (name : String)
  | reference (name : String)
  | array (items : List Code)
  | parens (inner : Code)
  | call (function : Code) (args : List Code)
  | apply (function list : Code)
  | block (function : Code)
  | define (name : String) (value : Code)
  | sequence (exprs : List Code)
  | lambda (params : List String) (rest : Option String) (locals : List String) (body : Code)
  | conditional (predicate thenArm elseArm : Code)
  | send (receiver : Code) (method : String) (args : List Code)
  | dynamicSend (receiver message : Code) (args : List Code)
  | guard (body : Code) (binding : String) (handler : Code)
  | topLevel (locals : List String) (expr : Code)

namespace Code

mutual

def render (target : Target) : Code → String
  | nil => target.nil
  | integer value => Target.integer value
  | float value => Target.float value
  | bool value => Target.bool value
  | string text => target.string text
  | symbol name => target.symbol name
  | reference name => Identifier.ofName name
  | array items => "[" ++ commaList (renderAll target items) ++ "]"
  | parens inner => "(" ++ inner.render target ++ ")"
  | call function args => target.call (function.render target) (renderAll target args)
  | apply function list => target.apply (function.render target) (list.render target)
  | block function => target.block (function.render target)
  | define name value => target.define (Identifier.ofName name) (value.render target)
  | sequence exprs => target.sequence (renderAll target exprs)
  | lambda params rest locals body =>
    target.lambda (params.map Identifier.ofName) (rest.map Identifier.ofName)
      (locals.map Identifier.ofName) (body.render target)
  | conditional predicate thenArm elseArm =>
    Target.conditional (predicate.render target) (thenArm.render target) (elseArm.render target)
  | send receiver method args => target.send (receiver.render target) method (renderAll target args)
  | dynamicSend receiver message args =>
    target.dynamicSend (receiver.render target) (message.render target) (renderAll target args)
  | guard body binding handler =>
    target.guard (body.render target) (Identifier.ofName binding) (handler.render target)
  | topLevel locals expr => target.topLevel (locals.map Identifier.ofName) (expr.render target)

def renderAll (target : Target) : List Code → List String
  | [] => []
  | code :: codes => code.render target :: renderAll target codes

end

mutual

def literal : Datum → Code
  | .list items => array (literals items)
  | .symbol name => symbol name
  | .integer value => integer value
  | .float value => float value
  | .string text => string text
  | .bool value => bool value
  | .nil => nil

def literals : List Datum → List Code
  | [] => []
  | item :: items => literal item :: literals items

end

variable (target : Target)

mutual

theorem render_literal (datum : Datum) : (literal datum).render target = target.literal datum := by
  cases datum with
  | list items => simp only [literal, render, Target.literal, renderAll_literals items]
  | _ => rfl

theorem renderAll_literals (items : List Datum) :
    renderAll target (literals items) = target.literals items := by
  cases items with
  | nil => rfl
  | cons item items =>
    simp only [literals, renderAll, Target.literals, render_literal item, renderAll_literals items]

end

end Code

def Identifier.IsName (name : String) : Prop :=
  ∃ source, ofName source = name

theorem Identifier.exists_sources {names : List String} (isName : ∀ name ∈ names, IsName name) :
    ∃ sources : List String, sources.map ofName = names := by
  induction names with
  | nil => exact ⟨[], rfl⟩
  | cons name names ih =>
    rcases isName name List.mem_cons_self with ⟨source, rfl⟩
    rcases ih fun other member => isName other (List.mem_cons_of_mem _ member) with ⟨sources, rfl⟩
    exact ⟨source :: sources, rfl⟩

namespace Parameters

theorem name?_isName {param : Datum} {name : String} (found : name? param = some name) :
    Identifier.IsName name := by
  cases param with
  | symbol source =>
    simp only [name?] at found
    split at found
    · simp at found
    · exact ⟨source, Option.some.inj found⟩
  | _ => simp [name?] at found

theorem names?_isName {params : List Datum} {names : List String}
    (found : names? params = some names) : ∀ name ∈ names, Identifier.IsName name := by
  induction params generalizing names with
  | nil =>
    cases found
    simp
  | cons param params ih =>
    simp only [names?, Option.bind_eq_bind, Option.bind_eq_some_iff, Option.pure_def,
      Option.some.injEq] at found
    rcases found with ⟨name, first, others, rest, rfl⟩
    exact List.forall_mem_cons.mpr ⟨name?_isName first, ih rest⟩

theorem ofDatum?_sources {params : Datum} {names : Parameters} (found : ofDatum? params = some names) :
    ∃ (fixed : List String) (rest : Option String),
      names = ⟨fixed.map Identifier.ofName, rest.map Identifier.ofName⟩ := by
  simp only [ofDatum?, Option.bind_eq_bind, Option.bind_eq_some_iff] at found
  rcases found with ⟨items, _, fixed, isFixed, found⟩
  rcases Identifier.exists_sources (names?_isName isFixed) with ⟨fixed, rfl⟩
  cases rest : (splitRest items).2 with
  | none =>
    simp only [rest, Option.pure_def, Option.some.injEq] at found
    exact ⟨fixed, none, found.symm⟩
  | some last =>
    simp only [rest, Option.bind_eq_some_iff, Option.pure_def, Option.some.injEq] at found
    rcases found with ⟨name, isLast, rfl⟩
    rcases name?_isName isLast with ⟨source, rfl⟩
    exact ⟨fixed, some source, rfl⟩

end Parameters

end LispCompiler
