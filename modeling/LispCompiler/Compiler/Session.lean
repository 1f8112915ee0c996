import LispCompiler.Compiler.Error
import LispCompiler.MacroTable
import LispCompiler.Target

/-!
The state of a compiler. A session keeps the host and the macros from form to form; a walk over one
form adds the names that are bound around the current node and counts how deep the node is nested.
-/

namespace LispCompiler

structure Compiler (σ μ : Type) where
  target : Target
  host : Host σ μ

structure Session (σ μ : Type) where
  host : σ
  macros : MacroTable μ

def Session.start (host : σ) : Session σ μ :=
  ⟨host, .empty⟩

/-- The walk over a form. `frames` holds the names bound by definitions, one frame for each function
around the current node and one for the form, the innermost first. -/
structure Walk (σ μ : Type) extends Session σ μ where
  frames : List (List String)
  expansions : Nat
  nesting : Nat

def Walk.start (session : Session σ μ) : Walk σ μ :=
  { session with frames := [[]], expansions := 0, nesting := 0 }

abbrev Emit (σ μ : Type) :=
  EStateM CompileError (Walk σ μ)

namespace Walk

def declare (name : String) (walk : Walk σ μ) : Walk σ μ :=
  match walk.frames with
  | [] => walk
  | frame :: outer =>
    { walk with frames := (if frame.contains name then frame else frame ++ [name]) :: outer }

def enterList (walk : Walk σ μ) : Walk σ μ :=
  { walk with nesting := walk.nesting + 1 }

def leaveList (walk : Walk σ μ) : Walk σ μ :=
  { walk with nesting := walk.nesting - 1 }

/-- An expansion stands in the place of the macro call, so the call's own list no longer counts. -/
def enterExpansion (walk : Walk σ μ) : Walk σ μ :=
  { walk with expansions := walk.expansions + 1, nesting := walk.nesting - 1 }

def leaveExpansion (walk : Walk σ μ) : Walk σ μ :=
  { walk with expansions := walk.expansions - 1, nesting := walk.nesting + 1 }

def enterFrame (walk : Walk σ μ) : Walk σ μ :=
  { walk with frames := [] :: walk.frames }

def leaveFrame (walk : Walk σ μ) : Walk σ μ :=
  { walk with frames := walk.frames.tail }

def locals (walk : Walk σ μ) : List String :=
  walk.frames.headD []

end Walk

namespace Emit

/-- Runs `body` between `enter` and `leave`, and leaves also where `body` fails. -/
def within (enter leave : Walk σ μ → Walk σ μ) (body : Emit σ μ α) : Emit σ μ α := fun walk =>
  match body (enter walk) with
  | .ok value walk => .ok value (leave walk)
  | .error error walk => .error error (leave walk)

def ofHost (wrap : HostError → CompileError) (action : EStateM HostError σ α) : Emit σ μ α :=
  fun walk =>
    match action walk.host with
    | .ok value host => .ok value { walk with host }
    | .error error host => .error (wrap error) { walk with host }

end Emit

end LispCompiler
