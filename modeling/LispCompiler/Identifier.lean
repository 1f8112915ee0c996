namespace LispCompiler.Identifier

def operatorAlias? : String → Option String
  | "=" => some "eq"
  | "*" => some "mul"
  | "/" => some "div"
  | "+" => some "add"
  | "-" => some "sub"
  | "<" => some "lt"
  | "<=" => some "lte"
  | ">" => some "gt"
  | ">=" => some "gte"
  | _ => none

/-- A character that no identifier has is written as an underscore and its decimal code. -/
def encodeChar (c : Char) : List Char :=
  if c.isAlpha || c == '_' then [c]
  else if c == '-' then ['_']
  else if c == '?' then ['_', 'q']
  else '_' :: Nat.toDigits 10 c.toNat

def ofName (name : String) : String :=
  match operatorAlias? name with
  | some operator => operator
  | none => String.ofList (name.toList.flatMap encodeChar)

end LispCompiler.Identifier
