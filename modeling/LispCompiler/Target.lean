namespace LispCompiler

inductive Target where
  | ruby
  | javascript
  deriving DecidableEq, Repr

namespace Target

def all : List Target :=
  [ruby, javascript]

def name : Target → String
  | ruby => "ruby"
  | javascript => "javascript"

def ofName? (name : String) : Option Target :=
  all.find? (·.name == name)

def unknownMessage (name : String) : String :=
  "unknown target `" ++ name ++ "`"

end Target

/-- Letters, digits and underscores, not starting with a digit. Characters of which `extra` holds
count as letters. -/
def isIdentifier (extra : Char → Bool) : List Char → Bool
  | [] => false
  | first :: rest =>
    let isStart c := c.isAlpha || c == '_' || extra c
    isStart first && rest.all fun c => isStart c || c.isDigit

def commaList (parts : List String) : String :=
  ", ".intercalate parts

end LispCompiler
