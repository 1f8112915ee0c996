import LispCompiler.Target
import LispCompiler.Text.Quoted

namespace LispCompiler.Ruby

def prologue : String :=
  "def print_value(value)\n" ++
  "  return value.to_s if value.is_a?(Symbol)\n" ++
  "  return value.inspect unless value.is_a?(Array)\n" ++
  "  \"'(#\x7bvalue.map \x7b |item| print_value(item) \x7d.join(' ')\x7d)\"\n" ++
  "end\n"

def nil : String :=
  "nil"

/-- A hash mark inside double quotes would start an interpolation. -/
def escapeHash (c : Char) : List Char :=
  if c == '#' then ['\\', '#'] else [c]

def string (text : String) : String :=
  String.ofList ((Quoted.quote text).toList.flatMap escapeHash)

def isMethodSuffix (c : Char) : Bool :=
  c == '?' || c == '!' || c == '='

/-- An identifier that may end with a question mark, an exclamation mark or an equals sign. -/
def isMethodName (name : List Char) : Bool :=
  let base := if name.getLast?.any isMethodSuffix then name.dropLast else name
  isIdentifier (fun _ => false) base

def symbol (name : String) : String :=
  if isMethodName name.toList then ":" ++ name else ":" ++ string name

def call (function : String) (args : List String) : String :=
  function ++ ".(" ++ commaList args ++ ")"

def apply (function args : String) : String :=
  function ++ ".(*" ++ args ++ ")"

def block (function : String) : String :=
  "&" ++ function

def define (name value : String) : String :=
  name ++ " = " ++ value

def sequence (exprs : List String) : String :=
  "(" ++ "; ".intercalate exprs ++ ")"

def lambda (params : List String) (rest : Option String) (body : String) : String :=
  let params := params ++ rest.toList.map ("*" ++ ·)
  "->(" ++ commaList params ++ ") \x7b " ++ body ++ " \x7d"

def dynamicSend (receiver message : String) (args : List String) : String :=
  receiver ++ ".public_send(" ++ commaList (message :: args) ++ ")"

def send (receiver method : String) (args : List String) : String :=
  if isMethodName method.toList then
    receiver ++ "." ++ method ++ "(" ++ commaList args ++ ")"
  else
    dynamicSend receiver (string method) args

def guard (body binding handler : String) : String :=
  "begin; " ++ body ++ "; rescue => " ++ binding ++ "; " ++ handler ++ "; end"

end LispCompiler.Ruby
