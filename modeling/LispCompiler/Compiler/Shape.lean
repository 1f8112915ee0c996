import LispCompiler.Datum
import LispCompiler.Identifier
import LispCompiler.MacroTable
import LispCompiler.SpecialForm

namespace LispCompiler

structure Parameters where
  fixed : List String
  rest : Option String
  deriving DecidableEq, Repr

namespace Parameters

def restMarker : String :=
  "&"

def name? (param : Datum) : Option String :=
  match param with
  | .symbol name => if name = restMarker then none else some (Identifier.ofName name)
  | _ => none

def names? : List Datum → Option (List String)
  | [] => some []
  | param :: params => do
    let name ← name? param
    let names ← names? params
    return name :: names

def splitRest (params : List Datum) : List Datum × Option Datum :=
  match params.reverse with
  | rest :: marker :: fixed =>
    if marker.isSymbol restMarker then (fixed.reverse, some rest) else (params, none)
  | _ => (params, none)

def ofDatum? (params : Datum) : Option Parameters := do
  let items ← params.items?
  let (fixed, rest) := splitRest items
  let fixed ← names? fixed
  match rest with
  | none => return ⟨fixed, none⟩
  | some rest => return ⟨fixed, some (← name? rest)⟩

def contains (params : Parameters) (name : String) : Bool :=
  params.fixed.contains name || params.rest == some name

end Parameters

def catchClause? : Datum → Option (String × Datum)
  | .list [head, .symbol binding, handler] =>
    if head.isSymbol "catch" then some (binding, handler) else none
  | _ => none

/-- What the head of a list makes of the list. Special forms come before macros. -/
inductive Role (μ : Type) where
  | special (form : SpecialForm)
  | macroCall (name : String) (expander : μ)
  | application

def Role.ofHead (macros : MacroTable μ) (head : Datum) : Role μ :=
  match head with
  | .symbol name =>
    match SpecialForm.ofName? name with
    | some form => .special form
    | none =>
      match macros.get? name with
      | some expander => .macroCall name expander
      | none => .application
  | _ => .application

/-- Whether a node's fragment binds tighter than a call, judged by the node's shape. -/
def isTight (macros : MacroTable μ) : Datum → Bool
  | .symbol name => name.toList.head? != some ':'
  | .string _ => true
  | .list (.symbol head :: _) =>
    match SpecialForm.ofName? head with
    | some .send | some .sequence => true
    | some _ => false
    | none => !macros.contains head
  | .list _ => true
  | _ => false

/-- A symbol that starts with a colon, and more, stands for itself. -/
def keyword? (name : String) : Option String :=
  match name.toList with
  | ':' :: c :: rest => some (String.ofList (c :: rest))
  | _ => none

end LispCompiler
