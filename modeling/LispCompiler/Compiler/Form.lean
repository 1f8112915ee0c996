import LispCompiler.Compiler.Session
import LispCompiler.Compiler.Shape
import LispCompiler.Target.Fragment

/-!
Compiling a form into a fragment. Each construct is compiled by a rule that takes the compiler of
the nodes below it as an argument, and `node` ties these rules together.
-/

namespace LispCompiler

namespace Compiler

/-- Compiles the nodes below the current one. Forms that emit nothing give no fragment. -/
abbrev Below (σ μ : Type) :=
  Datum → Emit σ μ (Option String)

variable (compiler : Compiler σ μ) (below : Below σ μ)

def expr (node : Datum) : Emit σ μ String := do
  return (← below node).getD compiler.target.nil

def exprs : List Datum → Emit σ μ (List String)
  | [] => return []
  | node :: nodes => do
    let first ← compiler.expr below node
    let rest ← exprs nodes
    return first :: rest

def body (below : Below σ μ) : List Datum → Emit σ μ (List String)
  | [] => return []
  | node :: nodes => do
    let first ← below node
    let rest ← body below nodes
    return first.toList ++ rest

/-- A node that is called or receives a message, in parentheses unless it is tight. -/
def operand (node : Datum) : Emit σ μ String := do
  let code ← compiler.expr below node
  return if isTight (← get).macros node then code else "(" ++ code ++ ")"

def lambda (params : Datum) (nodes : List Datum) : Emit σ μ String := do
  match Parameters.ofDatum? params with
  | none => throw (.invalidParameters params)
  | some names =>
    let (exprs, locals) ← Emit.within Walk.enterFrame Walk.leaveFrame do
      let exprs ← body below nodes
      return (exprs, (← get).locals)
    let locals := locals.filter (!names.contains ·)
    return compiler.target.lambda names.fixed names.rest locals (compiler.target.sequence exprs)

def defineMacro (name : String) (function : Datum) : Emit σ μ Unit := do
  let fragment ← compiler.expr below function
  let expander ← Emit.ofHost (.macroDefinition name) (compiler.host.evalMacro name fragment)
  modify fun walk => { walk with macros := walk.macros.define name expander }

def symbolName (form : SpecialForm) : Datum → Emit σ μ String
  | .symbol name => return name
  | other => throw (.expectedSymbol form other)

/-- Data built by macros were never read, so their depth is checked before they are walked. -/
def checkDepth (datum : Datum) : Emit σ μ Unit :=
  if maxNesting < datum.depth then throw .nestingTooDeep else return ()

def wrongArity (form : SpecialForm) (expected : Arity) (args : List Datum) : Emit σ μ α :=
  throw (.arity form expected args.length)

def special (form : SpecialForm) (args : List Datum) : Emit σ μ (Option String) :=
  match form with
  | .apply =>
    match args with
    | [function, list] => do
      let function ← compiler.operand below function
      let list ← compiler.expr below list
      return some (compiler.target.apply function list)
    | _ => wrongArity form (.exactly 2) args
  | .block =>
    match args with
    | [function] => do
      return some (compiler.target.block (← compiler.expr below function))
    | _ => wrongArity form (.exactly 1) args
  | .define =>
    match args with
    | [name, value] => do
      let name := Identifier.ofName (← symbolName form name)
      let value ← compiler.expr below value
      modify (Walk.declare name)
      return some (compiler.target.define name value)
    | _ => wrongArity form (.exactly 2) args
  | .defineMacro =>
    match args with
    | [name, function] => do
      compiler.defineMacro below (← symbolName form name) function
      return none
    | _ => wrongArity form (.exactly 2) args
  | .sequence => do
    return some (compiler.target.sequence (← body below args))
  | .function =>
    match args with
    | params :: nodes => do
      return some (← compiler.lambda below params nodes)
    | [] => wrongArity form (.atLeast 1) args
  | .conditional =>
    match args with
    | [predicate, thenArm, elseArm] => do
      let predicate ← compiler.expr below predicate
      let thenArm ← compiler.expr below thenArm
      let elseArm ← compiler.expr below elseArm
      return some (Target.conditional predicate thenArm elseArm)
    | _ => wrongArity form (.exactly 3) args
  | .send =>
    match args with
    | receiver :: message :: rest => do
      let receiver ← compiler.operand below receiver
      let rest ← compiler.exprs below rest
      match message with
      | .string method => return some (compiler.target.send receiver method rest)
      | _ =>
        let message ← compiler.expr below message
        return some (compiler.target.dynamicSend receiver message rest)
    | _ => wrongArity form (.atLeast 2) args
  | .quasiquote =>
    match args with
    | [template] => do
      checkDepth template
      match Template.expand template with
      | .ok expanded => below expanded
      | .error flaw => throw (.template flaw)
    | _ => wrongArity form (.exactly 1) args
  | .quote =>
    match args with
    | [datum] => do
      checkDepth datum
      return some (compiler.target.literal datum)
    | _ => wrongArity form (.exactly 1) args
  | .guard =>
    match args with
    | [node, clause] => do
      match catchClause? clause with
      | none => throw (.malformedCatch clause)
      | some (binding, handler) =>
        let node ← compiler.expr below node
        let handler ← compiler.expr below handler
        return some (compiler.target.guard node (Identifier.ofName binding) handler)
    | _ => wrongArity form (.exactly 2) args

def macroCall (name : String) (expander : μ) (args : List Datum) : Emit σ μ (Option String) := do
  if maxExpansions ≤ (← get).expansions then
    throw (.expansionTooDeep name)
  else
    let expansion ← Emit.ofHost (.macroExpansion name) (compiler.host.expand expander args)
    Emit.within Walk.enterExpansion Walk.leaveExpansion (below expansion)

def application (head : Datum) (args : List Datum) : Emit σ μ (Option String) := do
  let function ← compiler.operand below head
  let args ← compiler.exprs below args
  return some (compiler.target.call function args)

def list : List Datum → Emit σ μ (Option String)
  | [] => throw .emptyApplication
  | head :: args => do
    match Role.ofHead (← get).macros head with
    | .special form => compiler.special below form args
    | .macroCall name expander => compiler.macroCall below name expander args
    | .application => compiler.application below head args

def step : Datum → Emit σ μ (Option String)
  | .list items => do
    if maxNesting ≤ (← get).nesting then
      throw .nestingTooDeep
    else
      Emit.within Walk.enterList Walk.leaveList (compiler.list below items)
  | .symbol name =>
    match keyword? name with
    | some keyword => return some (compiler.target.symbol keyword)
    | none => return some (Identifier.ofName name)
  | .integer value => return some (Target.integer value)
  | .float value => return some (Target.float value)
  | .string text => return some (compiler.target.string text)
  | .bool value => return some (Target.bool value)
  | .nil => return some compiler.target.nil

/-- Nodes can be compiled within nodes at most this often: each time, a list is entered or a macro
call replaced, and the innermost node is neither. -/
def maxLevels : Nat :=
  maxNesting + maxExpansions + 1

/-- A node, given that at most `levels` nodes are compiled within each other. -/
def node (compiler : Compiler σ μ) (levels : Nat) : Below σ μ := fun datum =>
  match levels with
  | 0 => throw .nestingTooDeep
  | levels + 1 => compiler.step (node compiler levels) datum

end Compiler

end LispCompiler
