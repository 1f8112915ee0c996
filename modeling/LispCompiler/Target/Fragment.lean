import LispCompiler.Datum
import LispCompiler.Double.Shortest
import LispCompiler.Target.JavaScript
import LispCompiler.Target.Ruby

/-!
The fragment of each construct in each target. Operands come as fragments, and what comes out is a
fragment again.
-/

namespace LispCompiler.Target

def prologue : Target → String
  | ruby => Ruby.prologue
  | javascript => JavaScript.prologue

def nil : Target → String
  | ruby => Ruby.nil
  | javascript => JavaScript.nil

def integer (value : Int64) : String :=
  toString value.toInt

def float (value : Double) : String :=
  value.render

def bool (value : Bool) : String :=
  if value then "true" else "false"

def string : Target → String → String
  | ruby => Ruby.string
  | javascript => JavaScript.string

def symbol : Target → String → String
  | ruby => Ruby.symbol
  | javascript => JavaScript.symbol

mutual

def literal (target : Target) : Datum → String
  | .list items => "[" ++ commaList (literals target items) ++ "]"
  | .symbol name => target.symbol name
  | .integer value => integer value
  | .float value => float value
  | .string text => target.string text
  | .bool value => bool value
  | .nil => target.nil

def literals (target : Target) : List Datum → List String
  | [] => []
  | item :: items => literal target item :: literals target items

end

def call : Target → String → List String → String
  | ruby => Ruby.call
  | javascript => JavaScript.call

def apply : Target → String → String → String
  | ruby => Ruby.apply
  | javascript => JavaScript.apply

def block : Target → String → String
  | ruby => Ruby.block
  | javascript => JavaScript.block

def define : Target → String → String → String
  | ruby => Ruby.define
  | javascript => JavaScript.define

def sequence : Target → List String → String
  | ruby => Ruby.sequence
  | javascript => JavaScript.sequence

/-- A function; `locals` are the names that its body binds. -/
def lambda (target : Target) (params : List String) (rest : Option String) (locals : List String)
    (body : String) : String :=
  match target with
  | ruby => Ruby.lambda params rest body
  | javascript => JavaScript.lambda params rest locals body

def conditional (predicate thenArm elseArm : String) : String :=
  "(" ++ predicate ++ " ? " ++ thenArm ++ " : " ++ elseArm ++ ")"

def send : Target → String → String → List String → String
  | ruby => Ruby.send
  | javascript => JavaScript.send

/-- Calls the method whose name the message evaluates to. -/
def dynamicSend : Target → String → String → List String → String
  | ruby => Ruby.dynamicSend
  | javascript => JavaScript.dynamicSend

def guard : Target → String → String → String → String
  | ruby => Ruby.guard
  | javascript => JavaScript.guard

/-- Declares the names that a whole form binds. -/
def topLevel (target : Target) (locals : List String) (expr : String) : String :=
  match target with
  | ruby => expr
  | javascript => JavaScript.topLevel locals expr

end LispCompiler.Target
