import LispCompiler.Compiler.Program
import LispCompiler.Sink

namespace LispCompiler

inductive GenerateError where
  | compile (error : CompileError)
  | output (message : String)
  deriving DecidableEq, Repr

def GenerateError.message : GenerateError → String
  | compile error => error.message
  | output message => "failed to write output: " ++ message

structure Emission (σ μ : Type) extends Session σ μ where
  sink : Sink

namespace Compiler

variable (compiler : Compiler σ μ)

def compileNext (form : Datum) : EStateM GenerateError (Emission σ μ) (Option String) := fun state =>
  match compiler.compile form state.toSession with
  | .ok fragment session => .ok fragment { state with toSession := session }
  | .error error session => .error (.compile error) { state with toSession := session }

def writeOut (text : String) : EStateM GenerateError (Emission σ μ) Unit := fun state =>
  match Sink.write text state.sink with
  | .ok () sink => .ok () { state with sink }
  | .error message sink => .error (.output message) { state with sink }

/-- Writes the fragments of forms, one on a line, up to the first failure. -/
def emit : List Datum → EStateM GenerateError (Emission σ μ) Unit
  | [] => return ()
  | form :: forms => do
    match ← compiler.compileNext form with
    | none => emit forms
    | some fragment =>
      writeOut (fragment ++ "\n")
      emit forms

def generate (forms : List Datum) : EStateM GenerateError (Emission σ μ) Unit := do
  writeOut compiler.target.prologue
  compiler.emit forms

end Compiler

end LispCompiler
