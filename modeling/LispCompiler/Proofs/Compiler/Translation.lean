import LispCompiler.Proofs.Compiler.Acceptance
import LispCompiler.Proofs.Compiler.Frames

/-!
The code of a form where no macros are defined, read off the form alone: each list is put together from
the code of its parts, and a function declares what the definitions in its body assign. Main statement:
compiling an accepted node yields its translation and binds the names that its definitions assign.
-/

namespace LispCompiler

/-- The operands that are compiled, in the order in which they are: a message comes behind the
arguments. -/
def SpecialForm.inOrder (form : SpecialForm) (args : List Datum) : List Datum :=
  match form, args with
  | .send, receiver :: .string _ :: rest => receiver :: rest
  | .send, receiver :: message :: rest => receiver :: (rest ++ [message])
  | _, _ => (form.compiled? args).getD []

theorem SpecialForm.inOrder_eq {form : SpecialForm} (other : form ≠ .send) (args : List Datum) :
    form.inOrder args = (form.compiled? args).getD [] := by
  cases form with
  | send => exact absurd rfl other
  | _ => rfl

theorem SpecialForm.mem_inOrder {form : SpecialForm} {args : List Datum} {part : Datum} :
    part ∈ form.inOrder args ↔ part ∈ (form.compiled? args).getD [] := by
  by_cases isSend : form = .send
  · subst isSend
    match args with
    | receiver :: message :: rest =>
      cases message with
      | string method => rfl
      | _ => simp [inOrder, compiled?, or_comm]
    | [] | [_] => rfl
  · rw [inOrder_eq isSend]

/-- The body of a function is compiled where its parameters have names. -/
theorem SpecialForm.function_compiled? {params : Datum} {names : Parameters}
    (named : Parameters.ofDatum? params = some names) (nodes : List Datum) :
    SpecialForm.function.compiled? (params :: nodes) = some nodes := by
  simp [compiled?, Parameters.any_isParameterList, named]

namespace Datum

def inOrder : Datum → List Datum
  | list (symbol name :: args) =>
    match SpecialForm.ofName? name with
    | some form => form.inOrder args
    | none => symbol name :: args
  | list items => items
  | _ => []

theorem inOrder_special (form : SpecialForm) (args : List Datum) :
    (list (symbol form.name :: args)).inOrder = form.inOrder args := by
  simp only [inOrder, SpecialForm.ofName?_name]

theorem inOrder_application {head : Datum} (ordinary : ∀ form : SpecialForm, head ≠ symbol form.name)
    (args : List Datum) : (list (head :: args)).inOrder = head :: args := by
  cases head with
  | symbol name => simp only [inOrder, SpecialForm.ofName?_eq_none ordinary]
  | _ => rfl

theorem inOrder_atom {node : Datum} (isAtom : node.items? = none) : node.inOrder = [] := by
  cases node with
  | list items => cases isAtom
  | _ => rfl

theorem mem_inOrder {node part : Datum} :
    part ∈ node.inOrder ↔ part ∈ Expanders.none.parts node := by
  cases node with
  | list items =>
    cases items with
    | nil => rfl
    | cons head args =>
      rcases SpecialForm.named_or_ordinary head with ⟨form, rfl⟩ | ordinary
      · rw [inOrder_special, Expanders.parts_special]
        exact SpecialForm.mem_inOrder
      · rw [inOrder_application ordinary, Expanders.none_parts_application ordinary]
  | _ => rfl

def binding? : Datum → Option String
  | list [symbol "def", symbol name, _] => some (Identifier.ofName name)
  | _ => none

theorem inOrder_smaller {node part : Datum} (compiled : part ∈ node.inOrder) :
    Prod.Lex (· < ·) (· < ·) (part.occurrences SpecialForm.quasiquote.name, part.size)
      (node.occurrences SpecialForm.quasiquote.name, node.size) := by
  cases node with
  | list items =>
    have smaller := Expanders.none_parts_smaller (mem_inOrder.mp compiled)
    simp only [Prod.lex_def]
    omega
  | _ => cases compiled

/-- The identifiers that definitions assign in the same body as the node, in the order in which the
definitions are finished. -/
def definitions (node : Datum) : List String :=
  if node.head? = some SpecialForm.function.name then []
  else (node.inOrder.attach.flatMap fun ⟨part, _⟩ => definitions part) ++ node.binding?.toList
termination_by (node.occurrences SpecialForm.quasiquote.name, node.size)
decreasing_by exact inOrder_smaller ‹_›

theorem definitions_eq (node : Datum) : node.definitions =
    if node.head? = some SpecialForm.function.name then []
    else node.inOrder.flatMap definitions ++ node.binding?.toList := by
  rw [definitions]
  simp

def declared (nodes : List Datum) : List String :=
  (nodes.flatMap definitions).eraseDups

end Datum

def Parameters.locals (names : Parameters) (nodes : List Datum) : List String :=
  (Datum.declared nodes).filter (!names.contains ·)

namespace Target

variable (target : Target)

def grouped (node : Datum) (code : String) : String :=
  if isTight (.empty : MacroTable Empty) node then code else "(" ++ code ++ ")"

def specialCode (form : SpecialForm) (args : List Datum) (codes : List String) : String :=
  match form, args, codes with
  | .apply, [callee, _], [function, list] => target.apply (grouped callee function) list
  | .block, _, [function] => target.block function
  | .define, [.symbol name, _], [value] => target.define (Identifier.ofName name) value
  | .sequence, _, codes => target.sequence codes
  | .function, params :: nodes, codes =>
    match Parameters.ofDatum? params with
    | some names =>
      target.lambda names.fixed names.rest (names.locals nodes) (target.sequence codes)
    | none => ""
  | .conditional, _, [predicate, thenArm, elseArm] => conditional predicate thenArm elseArm
  | .send, receiver :: .string method :: _, code :: codes =>
    target.send (grouped receiver code) method codes
  | .send, receiver :: _ :: _, code :: codes =>
    target.dynamicSend (grouped receiver code) (codes.getLastD "") codes.dropLast
  | .quasiquote, _, [code] => code
  | .quote, [datum], _ => target.literal datum
  | .guard, [_, .list [_, .symbol binding, _]], [node, handler] =>
    target.guard node (Identifier.ofName binding) handler
  | _, _, _ => ""

def callCode (head : Datum) (codes : List String) : String :=
  match codes with
  | function :: args => target.call (grouped head function) args
  | [] => ""

def nodeCode (node : Datum) (codes : List String) : String :=
  match node with
  | .list (.symbol name :: args) =>
    match SpecialForm.ofName? name with
    | some form => target.specialCode form args codes
    | none => target.callCode (.symbol name) codes
  | .list (head :: _) => target.callCode head codes
  | node => Compiler.atomFragment target node

def translation (node : Datum) : String :=
  target.nodeCode node (node.inOrder.attach.map fun ⟨part, _⟩ => translation part)
termination_by (node.occurrences SpecialForm.quasiquote.name, node.size)
decreasing_by exact Datum.inOrder_smaller ‹_›

theorem translation_eq (node : Datum) :
    target.translation node = target.nodeCode node (node.inOrder.map target.translation) := by
  rw [translation]
  simp

theorem translation_special (form : SpecialForm) (args : List Datum) :
    target.translation (.list (.symbol form.name :: args)) =
      target.specialCode form args ((form.inOrder args).map target.translation) := by
  rw [translation_eq, Datum.inOrder_special]
  simp only [nodeCode, SpecialForm.ofName?_name]

theorem translation_function {params : Datum} {names : Parameters}
    (named : Parameters.ofDatum? params = some names) (nodes : List Datum) :
    target.translation (.list (.symbol SpecialForm.function.name :: params :: nodes)) =
      target.lambda names.fixed names.rest (names.locals nodes)
        (target.sequence (nodes.map target.translation)) := by
  have order : SpecialForm.function.inOrder (params :: nodes) = nodes := by
    rw [SpecialForm.inOrder_eq (by decide), SpecialForm.function_compiled? named, Option.getD_some]
  rw [translation_special, order]
  simp only [specialCode, named]

theorem translation_application {head : Datum}
    (ordinary : ∀ form : SpecialForm, head ≠ .symbol form.name) (args : List Datum) :
    target.translation (.list (head :: args)) =
      target.call (grouped head (target.translation head)) (args.map target.translation) := by
  rw [translation_eq, Datum.inOrder_application ordinary]
  cases head with
  | symbol name => simp only [nodeCode, SpecialForm.ofName?_eq_none ordinary, List.map_cons, callCode]
  | _ => rfl

theorem translation_atom {node : Datum} (isAtom : node.items? = none) :
    target.translation node = Compiler.atomFragment target node := by
  rw [translation_eq]
  cases node with
  | list items => cases isAtom
  | _ => rfl

end Target

namespace Datum

theorem binding?_special {form : SpecialForm} (other : form ≠ .define) (args : List Datum) :
    (list (symbol form.name :: args)).binding? = none := by
  cases form with
  | define => exact absurd rfl other
  | _ => rfl

theorem binding?_application {head : Datum} (ordinary : ∀ form : SpecialForm, head ≠ symbol form.name)
    (args : List Datum) : (list (head :: args)).binding? = none := by
  unfold binding?
  split
  · next same =>
    cases same
    exact absurd rfl (ordinary .define)
  · rfl

theorem definitions_application {head : Datum}
    (ordinary : ∀ form : SpecialForm, head ≠ symbol form.name) (args : List Datum) :
    (list (head :: args)).definitions = (head :: args).flatMap definitions := by
  have noFunction : (list (head :: args)).head? ≠ some SpecialForm.function.name := by
    intro same
    cases head with
    | symbol name =>
      cases same
      exact ordinary .function rfl
    | _ => cases same
  rw [definitions_eq, if_neg noFunction, inOrder_application ordinary, binding?_application ordinary,
    Option.toList_none, List.append_nil]

theorem head?_eq_function {form : SpecialForm} {args : List Datum} :
    (list (symbol form.name :: args)).head? = some SpecialForm.function.name ↔ form = .function := by
  constructor
  · intro same
    have named : form.name = SpecialForm.function.name := Option.some.inj same
    apply Option.some.inj
    rw [← SpecialForm.ofName?_name form, named, SpecialForm.ofName?_name]
  · intro same
    rw [same]
    rfl

theorem definitions_function (args : List Datum) :
    (list (symbol SpecialForm.function.name :: args)).definitions = [] := by
  rw [definitions_eq, if_pos (head?_eq_function.mpr rfl)]

theorem definitions_special {form : SpecialForm} (other : form ≠ .function) (args : List Datum) :
    (list (symbol form.name :: args)).definitions = (form.inOrder args).flatMap definitions ++
      (list (symbol form.name :: args)).binding?.toList := by
  rw [definitions_eq, if_neg (mt head?_eq_function.mp other), inOrder_special]

theorem definitions_shared {form : SpecialForm} (ordinary : form ≠ .function ∧ form ≠ .define)
    (args : List Datum) :
    (list (symbol form.name :: args)).definitions = (form.inOrder args).flatMap definitions := by
  rw [definitions_special ordinary.1, binding?_special ordinary.2, Option.toList_none, List.append_nil]

theorem definitions_atom {node : Datum} (isAtom : node.items? = none) : node.definitions = [] := by
  rw [definitions_eq, inOrder_atom isAtom]
  cases node with
  | list items => cases isAtom
  | _ => rfl

end Datum

theorem WellFormed.part {node part : Datum} (wellFormed : WellFormed node)
    (compiled : part ∈ Expanders.none.parts node) : WellFormed part := by
  cases wellFormed with
  | atom single =>
    cases node with
    | list items => cases single
    | _ => cases compiled
  | special fits all =>
    rw [Expanders.parts_special, fits, Option.getD_some] at compiled
    exact all part compiled
  | application ordinary all =>
    rw [Expanders.none_parts_application ordinary] at compiled
    exact all part compiled

namespace Compiler

open Emit (Binds)

def Use.code (target : Target) : Use × Datum → String
  | (.callee, node) => Target.grouped node (target.translation node)
  | (_, node) => target.translation node

namespace Construct

def names (construct : Construct) : List String :=
  match construct.scope with
  | .shared => construct.nodes.flatMap Datum.definitions
  | .own => []
  | .binding name => construct.nodes.flatMap Datum.definitions ++ [name]

def locals (construct : Construct) : List String :=
  match construct.scope with
  | .own => Datum.declared construct.nodes
  | _ => []

def code (target : Target) (construct : Construct) : String :=
  construct.finish construct.locals (construct.operands.map (Use.code target))

end Construct

variable {compiler : Compiler σ μ} {below : Below σ μ} {expansions nesting : Nat} {session : Session σ μ}

def Translates (compiler : Compiler σ μ) (below : Below σ μ) (expansions nesting : Nat)
    (session : Session σ μ) (node : Datum) : Prop :=
  Binds expansions nesting (below node) session node.definitions
    (.ok (some (compiler.target.translation node)) session)

theorem isTight_empty (node : Datum) :
    isTight (.empty : MacroTable μ) node = isTight (.empty : MacroTable Empty) node := by
  simp [isTight, MacroTable.contains, MacroTable.empty]

theorem binds_expr {node : Datum} (inside : compiler.Translates below expansions nesting session node) :
    Binds expansions nesting (compiler.expr below node) session node.definitions
      (.ok (compiler.target.translation node) session) :=
  inside.andThen _

theorem binds_emitOperand (plain : session.macros = .empty) (operand : Use × Datum)
    (inside : compiler.Translates below expansions nesting session operand.2) :
    Binds expansions nesting (compiler.emitOperand below operand.1 operand.2) session
      operand.2.definitions (.ok [Use.code compiler.target operand] session) := by
  rcases operand with ⟨use, node⟩
  cases use with
  | value => exact (binds_expr inside).andThen _
  | statement => exact inside.andThen _
  | callee =>
    have grouped : Binds expansions nesting (compiler.operand below node) session node.definitions
        (.ok (Target.grouped node (compiler.target.translation node)) session) := by
      rw [← List.append_nil node.definitions]
      refine (binds_expr inside).bind (.ofGet (fun frames => ?_) (.ofPure _))
      rw [plain, isTight_empty]
      rfl
    exact grouped.andThen _

theorem binds_emitOperands (plain : session.macros = .empty) (operands : List (Use × Datum))
    (inside : ∀ node ∈ operands.map Prod.snd,
      compiler.Translates below expansions nesting session node) :
    Binds expansions nesting (compiler.emitOperands below operands) session
      ((operands.map Prod.snd).flatMap Datum.definitions)
      (.ok (operands.map (Use.code compiler.target)) session) := by
  induction operands with
  | nil => exact .ofPure _
  | cons operand operands ih =>
    rw [List.map_cons, List.forall_mem_cons] at inside
    exact (binds_emitOperand plain operand inside.1).bind ((ih inside.2).andThen _)

theorem binds_emitConstruct (plain : session.macros = .empty) (construct : Construct)
    (inside : ∀ node ∈ construct.nodes, compiler.Translates below expansions nesting session node) :
    Binds expansions nesting (compiler.emitConstruct below construct) session construct.names
      (.ok (some (construct.code compiler.target)) session) := by
  have operands : Binds expansions nesting (compiler.emitOperands below construct.operands) session
      (construct.nodes.flatMap Datum.definitions)
      (.ok (construct.operands.map (Use.code compiler.target)) session) :=
    binds_emitOperands plain _ inside
  unfold emitConstruct Construct.code Construct.names Construct.locals
  cases construct.scope with
  | shared => exact operands.andThen _
  | own => exact operands.withinFrame.andThen _
  | binding name => exact operands.bind ((Binds.ofDeclare name).andThen _)

inductive Plan.Translates (target : Target) (node : Datum) : Plan μ → Prop
  | replaced {part : Datum} (nodes : node.inOrder = [part]) (names : part.definitions = node.definitions)
      (code : target.translation part = target.translation node) : Translates target node (.become part)
  | built {construct : Construct} (nodes : construct.nodes = node.inOrder)
      (names : construct.names = node.definitions)
      (code : construct.code target = target.translation node) :
      Translates target node (.construct construct)

section Plans

variable {target : Target} {form : SpecialForm} {args : List Datum} {construct : Construct}

/-- A construct without a scope of its own binds what its operands do. -/
theorem Plan.Translates.shared (scope : construct.scope = .shared)
    (ordinary : form ≠ .function ∧ form ≠ .define) (nodes : construct.nodes = form.inOrder args)
    (code : construct.code target =
      target.specialCode form args ((form.inOrder args).map target.translation)) :
    Plan.Translates target (.list (.symbol form.name :: args)) (.construct construct : Plan μ) := by
  refine .built ?_ ?_ ?_
  · rw [nodes, Datum.inOrder_special]
  · rw [Construct.names, scope, nodes, Datum.definitions_shared ordinary]
  · rw [code, Target.translation_special]

theorem map_snd_use (use : Use) (nodes : List Datum) :
    (nodes.map (use, ·)).map Prod.snd = nodes := by
  simp [Function.comp_def]

theorem map_code_use (use : Use) (direct : use ≠ .callee) (nodes : List Datum) :
    (nodes.map (use, ·)).map (Use.code target) = nodes.map target.translation := by
  cases use with
  | callee => exact absurd rfl direct
  | _ => simp [Function.comp_def, Use.code]

theorem functionPlan_translates {params : Datum} {names : Parameters}
    (named : Parameters.ofDatum? params = some names) (nodes : List Datum) :
    Plan.Translates target (.list (.symbol SpecialForm.function.name :: params :: nodes))
      (.construct (functionPlan target names nodes) : Plan μ) := by
  have all : (functionPlan target names nodes).nodes = nodes := map_snd_use .statement nodes
  have codes : (functionPlan target names nodes).operands.map (Use.code target) =
      nodes.map target.translation := map_code_use .statement (by decide) nodes
  refine .built ?_ ?_ ?_
  · rw [all, Datum.inOrder_special, SpecialForm.inOrder_eq (by decide),
      SpecialForm.function_compiled? named, Option.getD_some]
  · rw [Datum.definitions_function]
    rfl
  · rw [Target.translation_function target named, Construct.code, codes, Construct.locals, all]
    rfl

theorem definePlan_translates (name : String) (value : Datum) :
    Plan.Translates target (.list [.symbol SpecialForm.define.name, .symbol name, value])
      (.construct (definePlan target name value) : Plan μ) := by
  have other : SpecialForm.define ≠ .function := by decide
  refine .built rfl ?_ ?_
  · rw [Datum.definitions_special other]
    rfl
  · rw [Target.translation_special]
    rfl

theorem sequencePlan_translates (nodes : List Datum) :
    Plan.Translates target (.list (.symbol SpecialForm.sequence.name :: nodes))
      (.construct (sequencePlan target nodes) : Plan μ) := by
  have codes : (sequencePlan target nodes).operands.map (Use.code target) =
      nodes.map target.translation := map_code_use .statement (by decide) nodes
  refine .shared rfl (by decide) (map_snd_use .statement nodes) ?_
  rw [Construct.code, codes]
  rfl

theorem sendPlan_translates (receiver : Datum) (method : String) (rest : List Datum) :
    Plan.Translates target (.list (.symbol SpecialForm.send.name :: receiver :: .string method :: rest))
      (.construct (sendPlan target receiver method rest) : Plan μ) := by
  have codes : (sendPlan target receiver method rest).operands.map (Use.code target) =
      Target.grouped receiver (target.translation receiver) :: rest.map target.translation :=
    congrArg _ (map_code_use .value (by decide) rest)
  refine .shared rfl (by decide) (congrArg _ (map_snd_use .value rest)) ?_
  rw [Construct.code, codes]
  rfl

theorem dynamicSendPlan_translates {receiver message : Datum} {rest : List Datum}
    (computed : ∀ text, message ≠ .string text) :
    Plan.Translates target (.list (.symbol SpecialForm.send.name :: receiver :: message :: rest))
      (.construct (dynamicSendPlan target receiver message rest) : Plan μ) := by
  have order : SpecialForm.send.inOrder (receiver :: message :: rest) =
      receiver :: (rest ++ [message]) := by
    cases message with
    | string text => exact absurd rfl (computed text)
    | _ => rfl
  have codes : (dynamicSendPlan target receiver message rest).operands.map (Use.code target) =
      Target.grouped receiver (target.translation receiver) ::
        (rest.map target.translation ++ [target.translation message]) := by
    rw [dynamicSendPlan, List.map_cons, List.map_append,
      map_code_use .value (by decide) rest]
    rfl
  refine .shared rfl (by decide) ?_ ?_
  · rw [order]
    simp [Construct.nodes, dynamicSendPlan, Function.comp_def]
  · rw [Construct.code, codes, order, List.map_cons, List.map_append]
    cases message with
    | string text => exact absurd rfl (computed text)
    | _ => rfl

theorem quasiquotePlan_translates {template : Datum} {parts : List Datum}
    (fits : SpecialForm.quasiquote.compiled? [template] = some parts) :
    Plan.Translates target (.list [.symbol SpecialForm.quasiquote.name, template])
      (specialPlan target .quasiquote [template] : Plan μ) := by
  rcases SpecialForm.quasiquote_compiled?.mp fits with ⟨_, expanded, whole, shallow, expands, rfl⟩
  cases whole
  have order : SpecialForm.quasiquote.inOrder [template] = [expanded] := by
    rw [SpecialForm.inOrder_eq (by decide), fits, Option.getD_some]
  have plan : (specialPlan target .quasiquote [template] : Plan μ) = .become expanded := by
    simp only [specialPlan, if_neg (Nat.not_lt.mpr shallow), expands]
  rw [plan]
  refine .replaced ?_ ?_ ?_
  · rw [Datum.inOrder_special, order]
  · have ordinary : SpecialForm.quasiquote ≠ .function ∧ SpecialForm.quasiquote ≠ .define := by decide
    rw [Datum.definitions_shared ordinary, order, List.flatMap_singleton]
  · rw [Target.translation_special, order]
    rfl

theorem quotePlan_translates {datum : Datum} {parts : List Datum}
    (fits : SpecialForm.quote.compiled? [datum] = some parts) :
    Plan.Translates target (.list [.symbol SpecialForm.quote.name, datum])
      (specialPlan target .quote [datum] : Plan μ) := by
  simp only [SpecialForm.compiled?, Option.ite_none_right_eq_some] at fits
  have plan : (specialPlan target .quote [datum] : Plan μ) = .construct (quotePlan target datum) := by
    simp only [specialPlan, if_neg (Nat.not_lt.mpr fits.1)]
  have order : SpecialForm.quote.inOrder [datum] = [] := by
    simp [SpecialForm.inOrder_eq, SpecialForm.compiled?, fits.1]
  rw [plan]
  refine .shared rfl (by decide) order.symm ?_
  rw [order]
  rfl

theorem guardPlan_translates {node clause : Datum} {parts : List Datum}
    (fits : SpecialForm.guard.compiled? [node, clause] = some parts) :
    Plan.Translates target (.list [.symbol SpecialForm.guard.name, node, clause])
      (specialPlan target .guard [node, clause] : Plan μ) := by
  simp only [SpecialForm.compiled?] at fits
  split at fits
  · exact .shared rfl (by decide) rfl rfl
  · cases fits

theorem callPlan_translates {head : Datum} (ordinary : ∀ form : SpecialForm, head ≠ .symbol form.name)
    (args : List Datum) :
    Plan.Translates target (.list (head :: args)) (.construct (callPlan target head args) : Plan μ) := by
  have all : (callPlan target head args).nodes = head :: args :=
    congrArg _ (map_snd_use .value args)
  have codes : (callPlan target head args).operands.map (Use.code target) =
      Target.grouped head (target.translation head) :: args.map target.translation :=
    congrArg _ (map_code_use .value (by decide) args)
  refine .built ?_ ?_ ?_
  · rw [all, Datum.inOrder_application ordinary]
  · rw [Datum.definitions_application ordinary, ← all]
    rfl
  · rw [Construct.code, codes, Target.translation_application target ordinary]
    rfl

theorem specialPlan_translates (form : SpecialForm) (args : List Datum) {parts : List Datum}
    (fits : form.compiled? args = some parts) (noMacro : form ≠ .defineMacro) :
    Plan.Translates target (.list (.symbol form.name :: args))
      (specialPlan target form args : Plan μ) := by
  match form, args with
  | .apply, [_, _] | .block, [_] | .conditional, [_, _, _] => exact .shared rfl (by decide) rfl rfl
  | .define, [name, value] =>
    cases name with
    | symbol name => exact definePlan_translates name value
    | _ => cases fits
  | .defineMacro, _ => exact absurd rfl noMacro
  | .sequence, nodes => exact sequencePlan_translates nodes
  | .function, params :: nodes =>
    simp only [SpecialForm.compiled?, Parameters.any_isParameterList] at fits
    simp only [specialPlan]
    cases named : Parameters.ofDatum? params with
    | none => simp [named] at fits
    | some names => exact functionPlan_translates named nodes
  | .send, receiver :: message :: rest =>
    cases message with
    | string method => exact sendPlan_translates receiver method rest
    | _ => exact dynamicSendPlan_translates (by simp)
  | .quasiquote, [_] => exact quasiquotePlan_translates fits
  | .quote, [_] => exact quotePlan_translates fits
  | .guard, [_, _] => exact guardPlan_translates fits
  | .apply, [] | .apply, [_] | .apply, _ :: _ :: _ :: _ | .block, [] | .block, _ :: _ :: _
  | .define, [] | .define, [_] | .define, _ :: _ :: _ :: _
  | .function, [] | .send, [] | .send, [_] | .quasiquote, [] | .quasiquote, _ :: _ :: _
  | .conditional, [] | .conditional, [_] | .conditional, [_, _] | .conditional, _ :: _ :: _ :: _ :: _
  | .quote, [] | .quote, _ :: _ :: _ | .guard, [] | .guard, [_] | .guard, _ :: _ :: _ :: _ => cases fits

theorem listPlan_translates {items : List Datum} (wellFormed : WellFormed (.list items))
    (noMacro : ¬(Datum.list items).IsSpecial .defineMacro) :
    Plan.Translates target (.list items) (listPlan target (.empty : MacroTable μ) items) := by
  cases items with
  | nil => exact absurd wellFormed WellFormed.not_nil
  | cons head args =>
    rcases SpecialForm.named_or_ordinary head with ⟨form, rfl⟩ | ordinary
    · rcases WellFormed.special_iff.mp wellFormed with ⟨parts, fits, -⟩
      rw [listPlan_special]
      refine specialPlan_translates form args fits ?_
      intro same
      subst same
      exact noMacro ⟨args, rfl⟩
    · rw [listPlan_application target ordinary]
      exact callPlan_translates ordinary args

end Plans

theorem binds_carryOut (plain : session.macros = .empty) {node : Datum} {plan : Plan μ}
    (planned : plan.Translates compiler.target node)
    (inside : ∀ part ∈ node.inOrder, compiler.Translates below expansions nesting session part) :
    Binds expansions nesting (compiler.carryOut below plan) session node.definitions
      (.ok (some (compiler.target.translation node)) session) := by
  cases planned with
  | @replaced part nodes names code =>
    rw [nodes, List.forall_mem_singleton] at inside
    rw [← names, ← code]
    exact inside
  | @built construct nodes names code =>
    rw [← nodes] at inside
    rw [← names, ← code]
    exact binds_emitConstruct plain construct inside

theorem Accepted.part {level : Nat} {items : List Datum} {part : Datum}
    (accepted : Accepted level (.list items)) (compiled : part ∈ Expanders.none.parts (.list items)) :
    Accepted (level + 1) part :=
  ⟨accepted.1.part compiled, (nesting_list_le.mp accepted.2).2 part compiled⟩

/-- An accepted node without definitions of macros is compiled to its translation. -/
theorem translates_node {levels : Nat} {node : Datum} (plain : session.macros = .empty)
    (accepted : Accepted nesting node) (enough : maxNesting < levels + nesting)
    (noMacros : ∀ inner, Expanders.none.Compiles node inner → ¬inner.IsSpecial .defineMacro) :
    compiler.Translates (compiler.node levels) expansions nesting session node := by
  -- on the levels: what is compiled for a list is one level down and one list deeper
  induction levels generalizing nesting node with
  | zero =>
    have shallow := accepted.2
    omega
  | succ levels ih =>
    change Binds expansions nesting (compiler.step (compiler.node levels) node) session _ _
    by_cases isAtom : node.items? = none
    · rw [step_atom _ _ isAtom, Datum.definitions_atom isAtom, Target.translation_atom _ isAtom]
      exact .ofPure _
    cases node with
    | list items =>
      apply binds_list (nesting_list_le.mp accepted.2).1
      rw [plain]
      apply binds_carryOut plain (listPlan_translates accepted.1 (noMacros _ .here))
      intro part member
      have compiled := Datum.mem_inOrder.mp member
      apply ih (accepted.part compiled) (by omega)
      intro inner compiles
      exact noMacros inner (.within compiled compiles)
    | _ => exact absurd rfl isAtom

end Compiler

end LispCompiler
