import LispCompiler.CommandLine.Options
import LispCompiler.Compiler.Program
import LispCompiler.SystemError

namespace LispCompiler.CommandLine

abbrev Files :=
  String → Except SystemError String

abbrev Task (σ μ : Type) :=
  EStateM String (Session σ μ)

def lines (texts : List String) : String :=
  String.join (texts.map (· ++ "\n"))

def readSource (files : Files) (path : String) : Task σ μ String :=
  match files path with
  | .ok source => return source
  | .error error => throw ("failed to read " ++ path ++ ": " ++ error.message)

def readForms (files : Files) (path : String) : Task σ μ (List Datum) := do
  let source ← readSource files path
  match Datum.readAll source with
  | .ok forms => return forms
  | .error error => throw (path ++ ":" ++ error.located)

/-- A step of a session whose failure is shown behind `label`. -/
def labelled (label : String) (action : Run σ μ α) : Task σ μ α := fun session =>
  match action session with
  | .ok value session => .ok value session
  | .error error session => .error (label ++ error.message) session

def tokenText (files : Files) (path : String) : Task σ μ String := do
  let source ← readSource files path
  return lines ((Token.lex source).map Token.describe)

def formText (files : Files) (path : String) : Task σ μ String := do
  let forms ← readForms files path
  return lines (forms.map Datum.print)

def loadText (compiler : Compiler σ μ) (files : Files) (path : String) : Task σ μ String := do
  let source ← readSource files path
  let fragments ← labelled (path ++ ":") (compiler.load source)
  return lines fragments

def codeText (compiler : Compiler σ μ) (files : Files) (path : String) : Task σ μ String := do
  let forms ← readForms files path
  let fragments ← labelled (path ++ ":") (compiler.fragments forms)
  return lines fragments

def preludeText (options : Options) (text : String → Task σ μ String) : Task σ μ String :=
  match options.prelude with
  | some path => text path
  | none => return ""

/-- The whole output for a file. The prelude's code is run, the file's is not. -/
def batch (compiler : Compiler σ μ) (options : Options) (files : Files) (file : String) :
    Task σ μ String := do
  match options.stage with
  | .tokens =>
    let before ← preludeText options (tokenText files)
    return before ++ (← tokenText files file)
  | .ast =>
    let before ← preludeText options (formText files)
    return before ++ (← formText files file)
  | .code =>
    let before ← preludeText options (loadText compiler files)
    return compiler.target.prologue ++ before ++ (← codeText compiler files file)

end LispCompiler.CommandLine
