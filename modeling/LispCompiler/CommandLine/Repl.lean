import LispCompiler.CommandLine.Batch
import LispCompiler.Text.Bytes

namespace LispCompiler.CommandLine

def prompt : String :=
  "user> "

def closing : String :=
  "^D\n"

def errorLine (message : String) : String :=
  "error: " ++ message ++ "\n"

def evaluate (compiler : Compiler σ μ) (form : Datum) (session : Session σ μ) :
    String × Session σ μ :=
  match compiler.compile form session with
  | .error error session => (errorLine error.message, session)
  | .ok none session => ("", session)
  | .ok (some fragment) session =>
    match compiler.run fragment session with
    | .ok () session => (fragment ++ "\n", session)
    | .error error session => (fragment ++ "\n" ++ errorLine error.message, session)

/-- What is printed for a line. Only its first form counts. -/
def respond (compiler : Compiler σ μ) (stage : Stage) (line : String) (session : Session σ μ) :
    String × Session σ μ :=
  match stage with
  | .tokens =>
    ("[" ++ ", ".intercalate ((Token.lex line).map Token.describe) ++ "]\n", session)
  | .ast =>
    match Datum.readFirst line with
    | .error error => (errorLine error.located, session)
    | .ok none => ("", session)
    | .ok (some form) => (form.print ++ "\n", session)
  | .code =>
    match Datum.readFirst line with
    | .error error => (errorLine error.located, session)
    | .ok none => ("", session)
    | .ok (some form) => evaluate compiler form session

/-- What an interactive session leaves: all it printed, and why it broke off if it did. -/
structure Transcript (σ μ : Type) where
  output : String
  failure : Option String
  session : Session σ μ

/-- Reads lines up to the end of the input. A line that is no text breaks the session off. -/
def interact (compiler : Compiler σ μ) (stage : Stage) (input : List UInt8)
    (session : Session σ μ) : Transcript σ μ :=
  match input with
  | [] => ⟨prompt ++ closing, none, session⟩
  | byte :: bytes =>
    match Bytes.toText (Bytes.splitLine (byte :: bytes)).1 with
    | .error error => ⟨prompt, some error.message, session⟩
    | .ok line =>
      let (output, session) := respond compiler stage line session
      let rest := interact compiler stage (Bytes.splitLine (byte :: bytes)).2 session
      { rest with output := prompt ++ output ++ rest.output }
termination_by input.length
decreasing_by exact Bytes.splitLine_length (byte :: bytes) (List.cons_ne_nil byte bytes)

def loadPrelude (compiler : Compiler σ μ) (options : Options) (files : Files) : Task σ μ Unit := do
  match options.prelude with
  | none => return ()
  | some path =>
    let source ← readSource files path
    let _ ← labelled "" (compiler.load source)

end LispCompiler.CommandLine
