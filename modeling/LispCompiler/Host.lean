import LispCompiler.Datum

/-!
Hosts run emitted code. A compiler asks its host to turn the fragment of a macro's function into an
expander, to apply expanders, and to run whole fragments.
-/

namespace LispCompiler

inductive HostError where
  | detached
  | raised (message : String)
  | process (message : String)
  deriving DecidableEq, Repr

def HostError.message : HostError → String
  | detached => "no execution environment attached"
  | raised message => message
  | process message => "execution environment failed: " ++ message

/-- A host with states of type `σ` whose macros are of type `μ`. A failing call may change the state
too. -/
structure Host (σ μ : Type) where
  evalMacro : (name fragment : String) → EStateM HostError σ μ
  expand : (expander : μ) → (args : List Datum) → EStateM HostError σ Datum
  run : (fragment : String) → EStateM HostError σ Unit

/-- A host that accepts fragments and does nothing with them, so that no macro can be defined. -/
def Host.detached : Host Unit Empty where
  evalMacro _ _ := throw .detached
  expand := nofun
  run _ := pure ()

end LispCompiler
