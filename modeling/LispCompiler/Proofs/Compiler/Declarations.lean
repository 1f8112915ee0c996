import LispCompiler.Proofs.Compiler.Translation

namespace LispCompiler

namespace Datum

/-- The second node is compiled in the same body as the first: no function stands around it there. -/
inductive SameBody : Datum → Datum → Prop
  | here {node : Datum} : SameBody node node
  | within {node part inner : Datum} (noFunction : ¬node.IsSpecial .function)
      (compiled : part ∈ Expanders.none.parts node) (inside : SameBody part inner) : SameBody node inner

def Assigns (nodes : List Datum) (name : String) : Prop :=
  ∃ node ∈ nodes, ∃ definition, SameBody node definition ∧ definition.binding? = some name

variable {node : Datum} {nodes : List Datum} {name : String}

theorem isSpecial_function_iff :
    node.IsSpecial .function ↔ node.head? = some SpecialForm.function.name := by
  constructor
  · intro isFunction
    rcases isFunction with ⟨args, rfl⟩
    exact head?_eq_function.mpr rfl
  · intro headed
    cases node with
    | list items =>
      cases items with
      | nil => cases headed
      | cons head args =>
        cases head with
        | symbol other =>
          cases headed
          exact ⟨args, rfl⟩
        | _ => cases headed
    | _ => cases headed

theorem mem_definitions (ordinary : ¬node.IsSpecial .function) :
    name ∈ node.definitions ↔
      (∃ part ∈ Expanders.none.parts node, name ∈ part.definitions) ∨ node.binding? = some name := by
  rw [definitions_eq, if_neg (mt isSpecial_function_iff.mpr ordinary)]
  simp [mem_inOrder]

theorem mem_definitions_of_sameBody {definition : Datum} (same : SameBody node definition)
    (assigns : definition.binding? = some name) : name ∈ node.definitions := by
  induction same with
  | here =>
    refine (mem_definitions ?_).mpr (.inr assigns)
    intro isFunction
    rcases isFunction with ⟨args, rfl⟩
    cases assigns
  | within noFunction compiled _ ih =>
    exact (mem_definitions noFunction).mpr (.inl ⟨_, compiled, ih assigns⟩)

theorem sameBody_of_mem_definitions (node : Datum) (assigned : name ∈ node.definitions) :
    ∃ definition, SameBody node definition ∧ definition.binding? = some name := by
  by_cases isFunction : node.IsSpecial .function
  · rcases isFunction with ⟨args, rfl⟩
    rw [definitions_function] at assigned
    cases assigned
  · rcases (mem_definitions isFunction).mp assigned with ⟨part, compiled, inside⟩ | here
    · rcases sameBody_of_mem_definitions part inside with ⟨definition, same, assigns⟩
      exact ⟨definition, .within isFunction compiled same, assigns⟩
    · exact ⟨node, .here, here⟩
termination_by (node.occurrences SpecialForm.quasiquote.name, node.size)
decreasing_by exact inOrder_smaller (mem_inOrder.mpr compiled)

theorem mem_declared : name ∈ declared nodes ↔ Assigns nodes name := by
  rw [declared, List.mem_eraseDups, List.mem_flatMap]
  constructor
  · intro assigned
    rcases assigned with ⟨node, member, assigned⟩
    exact ⟨node, member, sameBody_of_mem_definitions node assigned⟩
  · intro assigned
    rcases assigned with ⟨node, member, definition, same, assigns⟩
    exact ⟨node, member, mem_definitions_of_sameBody same assigns⟩

theorem declared_nodup : (declared nodes).Nodup :=
  nodup_eraseDups _

theorem sameBody_or_function {form : Datum} (compiles : Expanders.none.Compiles form node) :
    SameBody form node ∨ ∃ function body, Expanders.none.Compiles form function ∧
      function.IsSpecial .function ∧ body ∈ Expanders.none.parts function ∧ SameBody body node := by
  induction compiles with
  | here => exact .inl .here
  | @within form part node compiled _ ih =>
    -- the part was in the same body as the node: the form is in it too, unless it is a function
    rcases ih with same | ⟨function, body, inside, isFunction, member, same⟩
    · by_cases isFunction : form.IsSpecial .function
      · exact .inr ⟨form, part, .here, isFunction, compiled, same⟩
      · exact .inl (.within isFunction compiled same)
    · exact .inr ⟨function, body, .within compiled inside, isFunction, member, same⟩

end Datum

namespace Parameters

variable {names : Parameters} {nodes : List Datum} {name : String}

theorem mem_locals :
    name ∈ names.locals nodes ↔ Datum.Assigns nodes name ∧ names.contains name = false := by
  rw [locals, List.mem_filter, Datum.mem_declared, Bool.not_eq_true']

theorem locals_nodup : (names.locals nodes).Nodup :=
  Datum.declared_nodup.filter _

end Parameters

theorem WellFormed.compiles {form node : Datum} (wellFormed : WellFormed form)
    (compiles : Expanders.none.Compiles form node) : WellFormed node := by
  induction compiles with
  | here => exact wellFormed
  | within compiled _ ih => exact ih (wellFormed.part compiled)

theorem WellFormed.function {args : List Datum}
    (wellFormed : WellFormed (.list (.symbol SpecialForm.function.name :: args))) :
    ∃ params nodes names, args = params :: nodes ∧ Parameters.ofDatum? params = some names := by
  rcases WellFormed.special_iff.mp wellFormed with ⟨parts, fits, -⟩
  cases args with
  | nil => cases fits
  | cons params nodes =>
    simp only [SpecialForm.compiled?, Parameters.any_isParameterList, Option.ite_none_right_eq_some] at fits
    rcases Option.isSome_iff_exists.mp fits.1 with ⟨names, named⟩
    exact ⟨params, nodes, names, rfl, named⟩

namespace Compiler

/-- A form that is compiled without macros yields its translation, behind the names it binds. -/
theorem compile_eq_translation {compiler : Compiler σ μ} {state : σ} {form : Datum} {fragment : String}
    {after : Session σ μ}
    (noMacros : ∀ node, Expanders.none.Compiles form node → ¬node.IsSpecial .defineMacro)
    (done : compiler.compile form (.start state) = .ok (some fragment) after) :
    WellFormed form ∧ fragment = compiler.target.topLevel (Datum.declared [form])
      (compiler.target.translation form) := by
  have decided : Decided 0 (Accepted 0 form) (Deep 0 form) (·.isSome)
      (compiler.node maxLevels form (Walk.start (.start state))) :=
    decides_node (Nat.zero_le _) (by decide) noMacros _ ⟨rfl, rfl⟩
  generalize result : compiler.node maxLevels form (Walk.start (.start state)) = emitted at decided
  cases decided with
  | error refused nested =>
    rw [compile, result] at done
    cases done
  | @ok code walk accepted emits plain =>
    have translates : compiler.Translates (compiler.node maxLevels) 0 0 (.start state) form :=
      translates_node rfl accepted (by decide) noMacros
    rw [compile_of_binds translates] at done
    refine ⟨accepted.1, ?_⟩
    rw [Datum.declared, List.flatMap_singleton]
    cases done
    rfl

/-- A form that is compiled to JavaScript without macros declares in front of its code the names that
are assigned in its body, in the order in which these assignments are finished, and each function in it
those assigned in its own body, parameters apart. No list repeats a name. So a name that is assigned is
declared once or a parameter, in the body where it is assigned. -/
theorem compile_declares (host : Host σ μ) (state : σ) (form : Datum) (fragment : String)
    (after : Session σ μ)
    (noMacros : ∀ node, Expanders.none.Compiles form node → ¬node.IsSpecial .defineMacro)
    (done : compile ⟨.javascript, host⟩ form (.start state) = .ok (some fragment) after) :
    (fragment = JavaScript.topLevel (Datum.declared [form]) (Target.javascript.translation form) ∧
      (Datum.declared [form]).Nodup ∧ ∀ name, name ∈ Datum.declared [form] ↔ Datum.Assigns [form] name) ∧
    (∀ args, Expanders.none.Compiles form (.list (.symbol "fn" :: args)) →
      ∃ params nodes names, args = params :: nodes ∧ Parameters.ofDatum? params = some names ∧
        Target.javascript.translation (.list (.symbol "fn" :: args)) =
          JavaScript.lambda names.fixed names.rest (names.locals nodes)
            (JavaScript.sequence (nodes.map Target.javascript.translation)) ∧
        (names.locals nodes).Nodup ∧
        ∀ name, name ∈ names.locals nodes ↔ Datum.Assigns nodes name ∧ names.contains name = false) ∧
    ∀ node name, Expanders.none.Compiles form node → node.binding? = some name →
      (Datum.SameBody form node ∧ (Datum.declared [form]).count name = 1) ∨
      ∃ params nodes names body,
        Expanders.none.Compiles form (.list (.symbol "fn" :: params :: nodes)) ∧
        Parameters.ofDatum? params = some names ∧ body ∈ nodes ∧ Datum.SameBody body node ∧
        (names.contains name ∨ (names.locals nodes).count name = 1) := by
  rcases compile_eq_translation noMacros done with ⟨wellFormed, whole⟩
  refine ⟨⟨whole, Datum.declared_nodup, fun _ => Datum.mem_declared⟩, ?_, ?_⟩
  · intro args compiles
    rcases (wellFormed.compiles compiles).function with ⟨params, nodes, names, rfl, named⟩
    exact ⟨params, nodes, names, rfl, named, Target.translation_function .javascript named nodes,
      Parameters.locals_nodup, fun _ => Parameters.mem_locals⟩
  · intro node name compiles assigns
    rcases Datum.sameBody_or_function compiles with same | ⟨_, body, inside, ⟨args, rfl⟩, member, same⟩
    · have assigned : Datum.Assigns [form] name := ⟨form, List.mem_singleton_self form, node, same, assigns⟩
      exact .inl ⟨same, List.count_eq_one_of_mem Datum.declared_nodup (Datum.mem_declared.mpr assigned)⟩
    · rcases (wellFormed.compiles inside).function with ⟨params, nodes, names, rfl, named⟩
      rw [Expanders.parts_special, SpecialForm.function_compiled? named, Option.getD_some] at member
      refine .inr ⟨params, nodes, names, body, inside, named, member, same, ?_⟩
      cases isParameter : names.contains name with
      | true => exact .inl rfl
      | false =>
        have assigned : name ∈ names.locals nodes :=
          Parameters.mem_locals.mpr ⟨⟨body, member, node, same, assigns⟩, isParameter⟩
        exact .inr (List.count_eq_one_of_mem Parameters.locals_nodup assigned)

/-- `(def x 2) (def c-d (fn () (def e 3))) (def c_d 4) (quasiquote ((unquote (def f '(def))))) (def y x)` -/
def assigningBody : List Datum :=
  [.list [.symbol "def", .symbol "x", .integer 2],
    .list [.symbol "def", .symbol "c-d", .list [.symbol "fn", .list [],
      .list [.symbol "def", .symbol "e", .integer 3]]],
    .list [.symbol "def", .symbol "c_d", .integer 4],
    .list [.symbol "quasiquote", .list [.list [.symbol "unquote",
      .list [.symbol "def", .symbol "f", .list [.symbol "quote", .list [.symbol "def"]]]]]],
    .list [.symbol "def", .symbol "y", .symbol "x"]]

def assigningDefinition : Datum :=
  .list [.symbol "def", .symbol "a", .list [.symbol "def", .symbol "b", .list (.symbol "fn" ::
    .list [.symbol "x", .symbol "&", .symbol "y"] :: assigningBody)]]

def assigningCode : String :=
  "var b, a; (a = (b = ((x, ...y) => \x7b let c_d, f; return ((x = 2), (c_d = (() => \x7b let e; return ((e = 3)); \x7d)), (c_d = 4), cons((f = [Symbol.for(\"def\")]), []), (y = x)); \x7d)))"

set_option maxRecDepth 2000 in
theorem compile_declares_assigningDefinition :
    compile ⟨.javascript, Host.detached⟩ assigningDefinition (.start ()) = .ok (some
      assigningCode) (.start ()) ∧
    Datum.declared [assigningDefinition] = ["b", "a"] ∧
    Parameters.locals ⟨["x"], some "y"⟩ assigningBody = ["c_d", "f"] ∧
    assigningCode =
      JavaScript.topLevel ["b", "a"] (Target.javascript.translation assigningDefinition) := by
  have compiled : compile ⟨.javascript, Host.detached⟩ assigningDefinition (.start ()) = .ok (some
      assigningCode) (.start ()) := by
    cbv
  have declared : Datum.declared [assigningDefinition] = ["b", "a"] := by cbv
  have noMacros : ∀ node, Expanders.none.Compiles assigningDefinition node → ¬node.IsSpecial .defineMacro := by
    intro node
    exact Expanders.none_compiles_not_special (by decide) (by decide)
  have text := (compile_declares Host.detached () assigningDefinition _ _ noMacros compiled).1.1
  rw [declared] at text
  exact ⟨compiled, declared, by cbv, text⟩

end Compiler

end LispCompiler
