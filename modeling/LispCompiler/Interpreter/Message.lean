import LispCompiler.Datum.Reader
import LispCompiler.Host
import LispCompiler.SystemError
import LispCompiler.Text.Whitespace

/-!
The lines that a host and its interpreter exchange. A request is a JSON array of three strings; a
reply is a status word and, behind a space, a form.
-/

namespace LispCompiler.Interpreter

inductive Command where
  | defineMacro
  | expand
  | run
  deriving DecidableEq, Repr

def Command.name : Command → String
  | defineMacro => "macro"
  | expand => "expand"
  | run => "run"

def requestLine (command name code : String) : String :=
  "[" ++ Quoted.quote command ++ ", " ++ Quoted.quote name ++ ", " ++ Quoted.quote code ++ "]"

inductive Fault where
  | cannotStart (program : String) (error : SystemError)
  | lost (error : SystemError)
  | exited
  | malformedReply (line : String)
  | noForm (macroName : String)
  deriving DecidableEq, Repr

def Fault.message : Fault → String
  | cannotStart program error => "failed to start `" ++ program ++ "`: " ++ error.message
  | lost error => "lost the interpreter: " ++ error.message
  | exited => "the interpreter exited"
  | malformedReply line => "malformed reply `" ++ line ++ "`"
  | noForm macroName => "macro `" ++ macroName ++ "` returned no form"

def Fault.toHostError (fault : Fault) : HostError :=
  .process fault.message

/-- What a reply without its line end says: a form or none, or what the evaluated code raised. -/
def decodeReply (line : List Char) : Except HostError (Option Datum) :=
  let status := String.ofList (line.takeWhile (· != ' '))
  let payload := String.ofList ((line.dropWhile (· != ' ')).drop 1)
  let malformed := (Fault.malformedReply (String.ofList line)).toHostError
  match Datum.readFirst payload with
  | .error _ => .error malformed
  | .ok form =>
    if status = "ok" then .ok form
    else
      match form with
      | some (.string message) => if status = "error" then .error (.raised message) else .error malformed
      | _ => .error malformed

end LispCompiler.Interpreter
