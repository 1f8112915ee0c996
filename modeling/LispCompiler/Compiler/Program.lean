import LispCompiler.Compiler.Form

/-!
Compiling forms one after the other. The macros and the host's state that a form leaves are there
for the next one, also where the form fails.
-/

namespace LispCompiler

abbrev Run (σ μ : Type) :=
  EStateM CompileError (Session σ μ)

namespace Compiler

variable (compiler : Compiler σ μ)

/-- The fragment of a form, with the names it binds declared; none where the form emits nothing. -/
def compile (form : Datum) : Run σ μ (Option String) := fun session =>
  match compiler.node maxLevels form (Walk.start session) with
  | .ok code walk => .ok (code.map (compiler.target.topLevel walk.locals)) walk.toSession
  | .error error walk => .error error walk.toSession

def fragments : List Datum → Run σ μ (List String)
  | [] => return []
  | form :: forms => do
    let first ← compiler.compile form
    let rest ← fragments forms
    return first.toList ++ rest

def run (fragment : String) : Run σ μ Unit := fun session =>
  match compiler.host.run fragment session.host with
  | .ok () host => .ok () { session with host }
  | .error error host => .error (.runtime error) { session with host }

def loadForms : List Datum → Run σ μ (List String)
  | [] => return []
  | form :: forms => do
    match ← compiler.compile form with
    | none => loadForms forms
    | some fragment =>
      compiler.run fragment
      let fragments ← loadForms forms
      return fragment :: fragments

/-- Reads a source and loads its forms. The fragments that were run are the result. -/
def load (source : String) : Run σ μ (List String) :=
  match Datum.readAll source with
  | .ok forms => compiler.loadForms forms
  | .error error => throw (.read error)

end Compiler

end LispCompiler
