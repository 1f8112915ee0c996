import LispCompiler.Datum.Printer
import LispCompiler.Datum.Reader
import LispCompiler.Datum.Template
import LispCompiler.Host
import LispCompiler.SpecialForm

namespace LispCompiler

/-- The nested macro expansions that are allowed within one form. -/
def maxExpansions : Nat :=
  512

inductive Arity where
  | exactly (count : Nat)
  | atLeast (count : Nat)
  deriving DecidableEq, Repr

def Arity.count : Arity → Nat
  | exactly count => count
  | atLeast count => count

def Arity.render (arity : Arity) : String :=
  let bound := match arity with
    | exactly _ => ""
    | atLeast _ => "at least "
  bound ++ toString arity.count ++ " operand" ++ if arity.count = 1 then "" else "s"

inductive CompileError where
  | read (error : ReadError)
  | template (flaw : Template.Flaw)
  | arity (form : SpecialForm) (expected : Arity) (actual : Nat)
  | expectedSymbol (form : SpecialForm) (actual : Datum)
  | invalidParameters (params : Datum)
  | malformedCatch (clause : Datum)
  | emptyApplication
  | macroDefinition (name : String) (error : HostError)
  | macroExpansion (name : String) (error : HostError)
  | expansionTooDeep (name : String)
  | nestingTooDeep
  | runtime (error : HostError)
  deriving DecidableEq, Repr

def CompileError.message : CompileError → String
  | read error => error.located
  | template flaw => flaw.message
  | arity form expected actual =>
    "`" ++ form.name ++ "` expects " ++ expected.render ++ ", but got " ++ toString actual
  | expectedSymbol form actual =>
    "`" ++ form.name ++ "` expects a symbol as name, but got " ++ actual.print
  | invalidParameters params => "invalid parameter list " ++ params.print
  | malformedCatch clause => "expected (catch <symbol> <handler>), but got " ++ clause.print
  | emptyApplication => "can't compile the empty list"
  | macroDefinition name error => "failed to define macro `" ++ name ++ "`: " ++ error.message
  | macroExpansion name error => "failed to expand macro `" ++ name ++ "`: " ++ error.message
  | expansionTooDeep name =>
    "maximum macro expansion depth (" ++ toString maxExpansions ++ ") exceeded while expanding `" ++
      name ++ "`"
  | nestingTooDeep =>
    "expression nested deeper than " ++ toString maxNesting ++ " levels after expansion"
  | runtime error => "runtime error: " ++ error.message

end LispCompiler
