import LispCompiler.CommandLine.Arguments
import LispCompiler.CommandLine.Repl
import LispCompiler.Interpreter.Host
import LispCompiler.Sink

namespace LispCompiler.CommandLine

structure Outcome where
  exitCode : Nat
  output : List UInt8
  stderr : String
  deriving DecidableEq, Repr

namespace Outcome

def success (output : List UInt8) : Outcome :=
  ⟨0, output, ""⟩

def failure (output : List UInt8) (message : String) : Outcome :=
  ⟨1, output, errorLine message⟩

def usage (error : UsageError) : Outcome :=
  ⟨2, [], errorLine error.message⟩

/-- The text of the output. There is none if it breaks off inside a character. -/
def stdout (outcome : Outcome) : String :=
  match Bytes.toText outcome.output with
  | .ok text => text
  | .error _ => ""

end Outcome

/-- Compiles with a given host. The host's state is returned with the outcome. What is printed for a
file goes to `stdout` all at once, and may be refused; an interactive session has room for all that
it prints. -/
def start (options : Options) (files : Files) (input : List UInt8) (stdout : Sink) (host : Host σ μ)
    (state : σ) : Outcome × σ :=
  let compiler : Compiler σ μ := ⟨options.target, host⟩
  match options.file with
  | some file =>
    match batch compiler options files file (.start state) with
    | .error message session => (.failure stdout.bytes message, session.host)
    | .ok output session =>
      match Sink.write output stdout with
      | .ok () stdout => (.success stdout.bytes, session.host)
      | .error message stdout => (.failure stdout.bytes message, session.host)
  | none =>
    match loadPrelude compiler options files (.start state) with
    | .error message session => (.failure stdout.bytes message, session.host)
    | .ok () session =>
      let transcript := interact compiler options.stage input session
      let output := stdout.bytes ++ Bytes.ofText transcript.output
      match transcript.failure with
      | none => (.success output, transcript.session.host)
      | some message => (.failure output message, transcript.session.host)

def settings (options : Options) : Interpreter.Settings :=
  match options.interpreter with
  | some program => ⟨options.target, program⟩
  | none => .ofTarget options.target

def execute (options : Options) (files : Files) (input : List UInt8) (stdout : Sink)
    (interpreters : Interpreter.State) : Outcome × Interpreter.State :=
  if options.detached then
    ((start options files input stdout Host.detached ()).1, interpreters)
  else
    start options files input stdout (Interpreter.host (settings options)) interpreters

def versionText : String :=
  "lispc 0.0.1\n"

def helpText : String :=
  "Usage: lispc [OPTIONS] [FILE]\n"

def run (args : List String) (files : Files) (input : List UInt8)
    (interpreters : Interpreter.State) : Outcome × Interpreter.State :=
  match Request.ofArguments args with
  | .error error => (.usage error, interpreters)
  | .ok .help => (.success (Bytes.ofText helpText), interpreters)
  | .ok .version => (.success (Bytes.ofText versionText), interpreters)
  | .ok (.compile options) => execute options files input .unlimited interpreters

end LispCompiler.CommandLine
