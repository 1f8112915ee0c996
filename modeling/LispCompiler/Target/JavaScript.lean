import LispCompiler.Target
import LispCompiler.Text.Quoted

namespace LispCompiler.JavaScript

def prologue : String :=
  "const print_value = (value) =>\n" ++
  "  Array.isArray(value) ? `'($\x7bvalue.map(print_value).join(\" \")\x7d)`\n" ++
  "  : typeof value === \"symbol\" ? Symbol.keyFor(value)\n" ++
  "  : value === null || value === undefined ? \"nil\"\n" ++
  "  : JSON.stringify(value);\n"

def nil : String :=
  "null"

def string (text : String) : String :=
  Quoted.quote text

def symbol (name : String) : String :=
  "Symbol.for(" ++ Quoted.quote name ++ ")"

def isName (name : List Char) : Bool :=
  isIdentifier (· == '$') name

def call (function : String) (args : List String) : String :=
  function ++ "(" ++ commaList args ++ ")"

def apply (function args : String) : String :=
  function ++ "(..." ++ args ++ ")"

def block (function : String) : String :=
  function

def define (name value : String) : String :=
  "(" ++ name ++ " = " ++ value ++ ")"

def sequence (exprs : List String) : String :=
  if exprs.isEmpty then "(void 0)" else "(" ++ commaList exprs ++ ")"

/-- A body that binds names of its own is a block that declares them. -/
def lambda (params : List String) (rest : Option String) (locals : List String) (body : String) :
    String :=
  let params := params ++ rest.toList.map ("..." ++ ·)
  if locals.isEmpty then
    "((" ++ commaList params ++ ") => " ++ body ++ ")"
  else
    "((" ++ commaList params ++ ") => \x7b let " ++ commaList locals ++ "; return " ++ body ++
      "; \x7d)"

def dynamicSend (receiver message : String) (args : List String) : String :=
  receiver ++ "[" ++ message ++ "](" ++ commaList args ++ ")"

def send (receiver method : String) (args : List String) : String :=
  if isName method.toList then
    receiver ++ "." ++ method ++ "(" ++ commaList args ++ ")"
  else
    dynamicSend receiver (string method) args

def guard (body binding handler : String) : String :=
  "(() => \x7b try \x7b return " ++ body ++ "; \x7d catch (" ++ binding ++ ") \x7b return " ++
    handler ++ "; \x7d \x7d)()"

def topLevel (locals : List String) (expr : String) : String :=
  if locals.isEmpty then expr else "var " ++ commaList locals ++ "; " ++ expr

end LispCompiler.JavaScript
