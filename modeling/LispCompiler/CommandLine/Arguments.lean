import LispCompiler.CommandLine.Options

/-!
Command line arguments. Options come with their value behind an equals sign or as the next
argument, each at most once; what is no option names the file to compile.
-/

namespace LispCompiler.CommandLine

def Stage.ofName? : String → Option Stage
  | "tokens" => some .tokens
  | "ast" => some .ast
  | "code" => some .code
  | _ => none

def targetOfName? (name : String) : Option Target :=
  if name = "js" then some .javascript else Target.ofName? name

inductive Request where
  | compile (options : Options)
  | help
  | version
  deriving DecidableEq, Repr

inductive UsageError where
  | unknownOption (name : String)
  | missingValue (name : String)
  | unexpectedValue (name : String)
  | invalidValue (name value : String)
  | repeated (name : String)
  | extraFile (path : String)
  | conflict (first second : String)
  deriving DecidableEq, Repr

def UsageError.message : UsageError → String
  | unknownOption name => "unexpected argument '" ++ name ++ "' found"
  | missingValue name => "a value is required for '" ++ name ++ "' but none was supplied"
  | unexpectedValue name => "unexpected value for '" ++ name ++ "' found"
  | invalidValue name value => "invalid value '" ++ value ++ "' for '" ++ name ++ "'"
  | repeated name => "the argument '" ++ name ++ "' cannot be used multiple times"
  | extraFile path => "unexpected argument '" ++ path ++ "' found"
  | conflict first second => "the argument '" ++ first ++ "' cannot be used with '" ++ second ++ "'"

structure Given where
  target : Option Target
  stage : Option Stage
  prelude : Option String
  interpreter : Option String
  detached : Bool
  file : Option String
  deriving DecidableEq, Repr

namespace Given

def start : Given :=
  ⟨none, none, none, none, false, none⟩

def finish (given : Given) : Except UsageError Request :=
  if given.interpreter.isSome && given.detached then .error (.conflict "--interpreter" "--detached")
  else
    .ok (.compile
      ⟨given.target.getD .ruby, given.stage.getD .code, given.prelude, given.interpreter,
        given.detached, given.file⟩)

def setFile (given : Given) (path : String) : Except UsageError Given :=
  if path.isEmpty then .error (.missingValue "FILE")
  else if given.file.isSome then .error (.extraFile path)
  else .ok { given with file := some path }

def once (name : String) (before : Option α) (value : Except UsageError α) :
    Except UsageError (Option α) :=
  if before.isSome then .error (.repeated name) else value.map some

def path (name value : String) : Except UsageError String :=
  if value.isEmpty then .error (.missingValue name) else .ok value

def choice (name value : String) (found : Option α) : Except UsageError α :=
  match found with
  | some found => .ok found
  | none => .error (.invalidValue name value)

end Given

inductive Valued where
  | target
  | stage
  | prelude
  | interpreter
  deriving DecidableEq, Repr

namespace Valued

def ofName? : String → Option Valued
  | "--target" => some target
  | "--emit" => some stage
  | "--prelude" => some prelude
  | "--interpreter" => some interpreter
  | _ => none

def set (option : Valued) (name value : String) (given : Given) : Except UsageError Given :=
  match option with
  | target => do
    let target ← Given.once name given.target (Given.choice name value (targetOfName? value))
    return { given with target }
  | stage => do
    let stage ← Given.once name given.stage (Given.choice name value (Stage.ofName? value))
    return { given with stage }
  | prelude => do
    let prelude ← Given.once name given.prelude (Given.path name value)
    return { given with prelude }
  | interpreter => do
    let interpreter ← Given.once name given.interpreter (Given.path name value)
    return { given with interpreter }

end Valued

inductive Argument where
  | escape
  | long (name : String) (value : Option String)
  | short (letter : Char)
  | plain (text : String)
  deriving DecidableEq, Repr

def Argument.ofText (text : String) : Argument :=
  match text.toList with
  | ['-', '-'] => .escape
  | '-' :: '-' :: _ =>
    let name := String.ofList (text.toList.takeWhile (· != '='))
    match text.toList.dropWhile (· != '=') with
    | [] => .long name none
    | _ :: value => .long name (some (String.ofList value))
  | '-' :: letter :: _ => .short letter
  | _ => .plain text

def parseFiles : List String → Given → Except UsageError Request
  | [], given => given.finish
  | path :: args, given => do
    parseFiles args (← given.setFile path)

def parse : List String → Given → Except UsageError Request
  | [], given => given.finish
  | arg :: args, given =>
    match Argument.ofText arg with
    | .escape => parseFiles args given
    | .plain path => do
      parse args (← given.setFile path)
    | .short 'h' => .ok .help
    | .short 'V' => .ok .version
    | .short _ => .error (.unknownOption arg)
    | .long name attached =>
      match Valued.ofName? name, attached with
      | some option, some value => do
        parse args (← option.set name value given)
      | some option, none =>
        match args with
        | [] => .error (.missingValue name)
        | value :: args =>
          match Argument.ofText value with
          | .plain value => do
            parse args (← option.set name value given)
          | _ => .error (.missingValue name)
      | none, attached =>
        if name = "--detached" then
          if attached.isSome then .error (.unexpectedValue name)
          else if given.detached then .error (.repeated name)
          else parse args { given with detached := true }
        else if name = "--help" then
          if attached.isSome then .error (.unexpectedValue name) else .ok .help
        else if name = "--version" then
          if attached.isSome then .error (.unexpectedValue name) else .ok .version
        else .error (.unknownOption name)

def Request.ofArguments (args : List String) : Except UsageError Request :=
  parse args .start

end LispCompiler.CommandLine
