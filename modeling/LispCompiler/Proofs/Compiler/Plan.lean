import LispCompiler.Compiler.Program

/-!
What a list is made into, read off its shape: an error, another node in its place, a macro, or a
construct whose operands are compiled one after the other. Main statement: compiling a list is
carrying out its plan.
-/

namespace LispCompiler

namespace Compiler

inductive Use where
  | value
  | callee
  | statement
  deriving DecidableEq, Repr

inductive Scope where
  | shared
  | own
  | binding (name : String)
  deriving DecidableEq, Repr

/-- Operands in the order in which they are compiled, and the fragment that theirs are put into. -/
structure Construct where
  operands : List (Use × Datum)
  scope : Scope
  finish : (locals fragments : List String) → String

def Construct.nodes (construct : Construct) : List Datum :=
  construct.operands.map Prod.snd

inductive Plan (μ : Type) where
  | refuse (error : CompileError)
  | become (node : Datum)
  | defineMacro (name : String) (function : Datum)
  | expand (name : String) (expander : μ) (args : List Datum)
  | construct (construct : Construct)

section Plans

variable (target : Target)

def applyPlan (function list : Datum) : Construct where
  operands := [(.callee, function), (.value, list)]
  scope := .shared
  finish
    | _, [function, list] => target.apply function list
    | _, _ => ""

def blockPlan (function : Datum) : Construct where
  operands := [(.value, function)]
  scope := .shared
  finish
    | _, [function] => target.block function
    | _, _ => ""

def definePlan (name : String) (value : Datum) : Construct where
  operands := [(.value, value)]
  scope := .binding (Identifier.ofName name)
  finish
    | _, [value] => target.define (Identifier.ofName name) value
    | _, _ => ""

def sequencePlan (nodes : List Datum) : Construct where
  operands := nodes.map (.statement, ·)
  scope := .shared
  finish _ fragments := target.sequence fragments

def functionPlan (params : Parameters) (nodes : List Datum) : Construct where
  operands := nodes.map (.statement, ·)
  scope := .own
  finish locals fragments :=
    target.lambda params.fixed params.rest (locals.filter (!params.contains ·))
      (target.sequence fragments)

def conditionalPlan (predicate thenArm elseArm : Datum) : Construct where
  operands := [(.value, predicate), (.value, thenArm), (.value, elseArm)]
  scope := .shared
  finish
    | _, [predicate, thenArm, elseArm] => Target.conditional predicate thenArm elseArm
    | _, _ => ""

def sendPlan (receiver : Datum) (method : String) (args : List Datum) : Construct where
  operands := (.callee, receiver) :: args.map (.value, ·)
  scope := .shared
  finish
    | _, receiver :: args => target.send receiver method args
    | _, [] => ""

def dynamicSendPlan (receiver message : Datum) (args : List Datum) : Construct where
  operands := (.callee, receiver) :: (args.map (.value, ·) ++ [(.value, message)])
  scope := .shared
  finish
    | _, receiver :: fragments =>
      target.dynamicSend receiver (fragments.getLastD "") fragments.dropLast
    | _, [] => ""

def quotePlan (datum : Datum) : Construct where
  operands := []
  scope := .shared
  finish _ _ := target.literal datum

def guardPlan (node : Datum) (binding : String) (handler : Datum) : Construct where
  operands := [(.value, node), (.value, handler)]
  scope := .shared
  finish
    | _, [node, handler] => target.guard node (Identifier.ofName binding) handler
    | _, _ => ""

def callPlan (head : Datum) (args : List Datum) : Construct where
  operands := (.callee, head) :: args.map (.value, ·)
  scope := .shared
  finish
    | _, function :: args => target.call function args
    | _, [] => ""

def specialPlan (form : SpecialForm) (args : List Datum) : Plan μ :=
  match form, args with
  | .apply, [function, list] => .construct (applyPlan target function list)
  | .apply, _ => .refuse (.arity form (.exactly 2) args.length)
  | .block, [function] => .construct (blockPlan target function)
  | .block, _ => .refuse (.arity form (.exactly 1) args.length)
  | .define, [name, value] =>
    match name with
    | .symbol name => .construct (definePlan target name value)
    | other => .refuse (.expectedSymbol form other)
  | .define, _ => .refuse (.arity form (.exactly 2) args.length)
  | .defineMacro, [name, function] =>
    match name with
    | .symbol name => .defineMacro name function
    | other => .refuse (.expectedSymbol form other)
  | .defineMacro, _ => .refuse (.arity form (.exactly 2) args.length)
  | .sequence, nodes => .construct (sequencePlan target nodes)
  | .function, params :: nodes =>
    match Parameters.ofDatum? params with
    | none => .refuse (.invalidParameters params)
    | some names => .construct (functionPlan target names nodes)
  | .function, [] => .refuse (.arity form (.atLeast 1) args.length)
  | .conditional, [predicate, thenArm, elseArm] =>
    .construct (conditionalPlan predicate thenArm elseArm)
  | .conditional, _ => .refuse (.arity form (.exactly 3) args.length)
  | .send, receiver :: .string method :: rest => .construct (sendPlan target receiver method rest)
  | .send, receiver :: message :: rest => .construct (dynamicSendPlan target receiver message rest)
  | .send, _ => .refuse (.arity form (.atLeast 2) args.length)
  | .quasiquote, [template] =>
    if maxNesting < template.depth then .refuse .nestingTooDeep
    else
      match Template.expand template with
      | .ok expanded => .become expanded
      | .error flaw => .refuse (.template flaw)
  | .quasiquote, _ => .refuse (.arity form (.exactly 1) args.length)
  | .quote, [datum] =>
    if maxNesting < datum.depth then .refuse .nestingTooDeep
    else .construct (quotePlan target datum)
  | .quote, _ => .refuse (.arity form (.exactly 1) args.length)
  | .guard, [node, clause] =>
    match catchClause? clause with
    | none => .refuse (.malformedCatch clause)
    | some (binding, handler) => .construct (guardPlan target node binding handler)
  | .guard, _ => .refuse (.arity form (.exactly 2) args.length)

def atomFragment : Datum → String
  | .list _ => ""
  | .symbol name =>
    match keyword? name with
    | some keyword => target.symbol keyword
    | none => Identifier.ofName name
  | .integer value => Target.integer value
  | .float value => Target.float value
  | .string text => target.string text
  | .bool value => Target.bool value
  | .nil => target.nil

def listPlan (macros : MacroTable μ) : List Datum → Plan μ
  | [] => .refuse .emptyApplication
  | head :: args =>
    match Role.ofHead macros head with
    | .special form => specialPlan target form args
    | .macroCall name expander => .expand name expander args
    | .application => .construct (callPlan target head args)

end Plans

variable (compiler : Compiler σ μ) (below : Below σ μ)

def emitOperand : Use → Datum → Emit σ μ (List String)
  | .value, node => return [← compiler.expr below node]
  | .callee, node => return [← compiler.operand below node]
  | .statement, node => return (← below node).toList

def emitOperands : List (Use × Datum) → Emit σ μ (List String)
  | [] => return []
  | (use, node) :: operands => do
    let first ← compiler.emitOperand below use node
    let rest ← emitOperands operands
    return first ++ rest

def emitConstruct (construct : Construct) : Emit σ μ (Option String) :=
  match construct.scope with
  | .shared => do
    let fragments ← compiler.emitOperands below construct.operands
    return some (construct.finish [] fragments)
  | .own => do
    let (fragments, locals) ← Emit.within Walk.enterFrame Walk.leaveFrame do
      let fragments ← compiler.emitOperands below construct.operands
      return (fragments, (← get).locals)
    return some (construct.finish locals fragments)
  | .binding name => do
    let fragments ← compiler.emitOperands below construct.operands
    modify (Walk.declare name)
    return some (construct.finish [] fragments)

def carryOut : Plan μ → Emit σ μ (Option String)
  | .refuse error => throw error
  | .become node => below node
  | .defineMacro name function => do
    compiler.defineMacro below name function
    return none
  | .expand name expander args => compiler.macroCall below name expander args
  | .construct construct => compiler.emitConstruct below construct

theorem emitOperands_values (nodes : List Datum) :
    compiler.emitOperands below (nodes.map (.value, ·)) = compiler.exprs below nodes := by
  induction nodes with
  | nil => rfl
  | cons node nodes ih => simp [emitOperands, emitOperand, exprs, ih]

theorem emitOperands_statements (nodes : List Datum) :
    compiler.emitOperands below (nodes.map (.statement, ·)) = body below nodes := by
  induction nodes with
  | nil => rfl
  | cons node nodes ih => simp [emitOperands, emitOperand, body, ih]

theorem emitOperands_append (first second : List (Use × Datum)) :
    compiler.emitOperands below (first ++ second) = do
      let left ← compiler.emitOperands below first
      let right ← compiler.emitOperands below second
      return left ++ right := by
  induction first with
  | nil => simp [emitOperands]
  | cons operand first ih =>
    simp only [List.cons_append, emitOperands, ih, bind_assoc, pure_bind, List.append_assoc]

theorem application_eq (head : Datum) (args : List Datum) :
    compiler.application below head args =
      compiler.emitConstruct below (callPlan compiler.target head args) := by
  simp [application, emitConstruct, callPlan, emitOperands, emitOperand, emitOperands_values]

theorem dynamicSend_eq (receiver message : Datum) (rest : List Datum) :
    compiler.emitConstruct below (dynamicSendPlan compiler.target receiver message rest) = do
      let receiver ← compiler.operand below receiver
      let rest ← compiler.exprs below rest
      let message ← compiler.expr below message
      return some (compiler.target.dynamicSend receiver message rest) := by
  simp [emitConstruct, dynamicSendPlan, emitOperands, emitOperand, emitOperands_append,
    emitOperands_values]

theorem special_send_eq (args : List Datum) : compiler.special below .send args =
    compiler.carryOut below (specialPlan compiler.target .send args) := by
  match args with
  | receiver :: message :: rest =>
    cases message with
    | string method =>
      simp [special, specialPlan, carryOut, emitConstruct, sendPlan, emitOperands, emitOperand,
        emitOperands_values]
    | _ => simp [special, specialPlan, carryOut, dynamicSend_eq]
  | [] | [_] => rfl

theorem special_function_eq (args : List Datum) : compiler.special below .function args =
    compiler.carryOut below (specialPlan compiler.target .function args) := by
  cases args with
  | nil => rfl
  | cons params nodes =>
    simp only [special, specialPlan, lambda]
    cases Parameters.ofDatum? params with
    | none => rfl
    | some names => simp [carryOut, emitConstruct, functionPlan, emitOperands_statements]

theorem special_quasiquote_eq (args : List Datum) : compiler.special below .quasiquote args =
    compiler.carryOut below (specialPlan compiler.target .quasiquote args) := by
  match args with
  | [template] =>
    simp only [special, specialPlan, checkDepth]
    split
    · rfl
    · cases Template.expand template <;> simp [carryOut]
  | [] | _ :: _ :: _ => rfl

theorem special_guard_eq (args : List Datum) : compiler.special below .guard args =
    compiler.carryOut below (specialPlan compiler.target .guard args) := by
  match args with
  | [node, clause] =>
    simp only [special, specialPlan]
    cases catchClause? clause with
    | none => rfl
    | some parts => simp [carryOut, emitConstruct, guardPlan, emitOperands, emitOperand]
  | [] | [_] | _ :: _ :: _ :: _ => rfl

theorem special_eq : ∀ (form : SpecialForm) (args : List Datum), compiler.special below form args =
    compiler.carryOut below (specialPlan compiler.target form args)
  | .apply, [function, list] => by
    simp [special, specialPlan, carryOut, emitConstruct, applyPlan, emitOperands, emitOperand]
  | .block, [function] => by
    simp [special, specialPlan, carryOut, emitConstruct, blockPlan, emitOperands, emitOperand]
  | .define, [name, value] => by
    cases name with
    | symbol name =>
      simp [special, specialPlan, symbolName, carryOut, emitConstruct, definePlan, emitOperands,
        emitOperand]
    | _ => rfl
  | .defineMacro, [name, function] => by
    cases name with
    | symbol name => simp [special, specialPlan, symbolName, carryOut]
    | _ => rfl
  | .sequence, nodes => by
    simp [special, specialPlan, carryOut, emitConstruct, sequencePlan, emitOperands_statements]
  | .function, args => compiler.special_function_eq below args
  | .conditional, [predicate, thenArm, elseArm] => by
    simp [special, specialPlan, carryOut, emitConstruct, conditionalPlan, emitOperands, emitOperand]
  | .send, args => compiler.special_send_eq below args
  | .quasiquote, args => compiler.special_quasiquote_eq below args
  | .quote, [datum] => by
    simp only [special, specialPlan, checkDepth]
    split
    · rfl
    · simp [carryOut, emitConstruct, quotePlan, emitOperands]
  | .guard, args => compiler.special_guard_eq below args
  | .apply, [] | .apply, [_] | .apply, _ :: _ :: _ :: _ | .block, [] | .block, _ :: _ :: _ => rfl
  | .define, [] | .define, [_] | .define, _ :: _ :: _ :: _ => rfl
  | .defineMacro, [] | .defineMacro, [_] | .defineMacro, _ :: _ :: _ :: _ => rfl
  | .conditional, [] | .conditional, [_] | .conditional, [_, _] | .conditional, _ :: _ :: _ :: _ :: _ => rfl
  | .quote, [] | .quote, _ :: _ :: _ => rfl

/-- Compiling a list is carrying out the plan that the macros of the moment give. -/
theorem list_eq (items : List Datum) (walk : Walk σ μ) :
    compiler.list below items walk =
      compiler.carryOut below (listPlan compiler.target walk.macros items) walk := by
  cases items with
  | nil => rfl
  | cons head args =>
    change (match Role.ofHead walk.macros head with
      | .special form => compiler.special below form args
      | .macroCall name expander => compiler.macroCall below name expander args
      | .application => compiler.application below head args) walk = _
    cases role : Role.ofHead walk.macros head with
    | special form => simp only [listPlan, role, special_eq]
    | macroCall name expander => simp only [listPlan, role, carryOut]
    | application => simp only [listPlan, role, carryOut, application_eq]

theorem step_list_full {walk : Walk σ μ} (full : maxNesting ≤ walk.nesting) (items : List Datum) :
    compiler.step below (.list items) walk = .error .nestingTooDeep walk :=
  congrFun (if_pos full) walk

theorem step_list {walk : Walk σ μ} (room : walk.nesting < maxNesting) (items : List Datum) :
    compiler.step below (.list items) walk = Emit.within Walk.enterList Walk.leaveList
      (compiler.carryOut below (listPlan compiler.target walk.macros items)) walk := by
  have entered : compiler.step below (.list items) walk =
      Emit.within Walk.enterList Walk.leaveList (compiler.list below items) walk :=
    congrFun (if_neg (Nat.not_le.mpr room)) walk
  rw [entered]
  unfold Emit.within
  rw [list_eq]
  rfl

theorem step_atom {node : Datum} (isAtom : node.items? = none) :
    compiler.step below node = pure (some (atomFragment compiler.target node)) := by
  cases node with
  | list items => cases isAtom
  | symbol name =>
    simp only [step, atomFragment]
    cases keyword? name <;> rfl
  | _ => rfl

end Compiler

end LispCompiler
