import LispCompiler.Datum
import LispCompiler.Double.Shortest
import LispCompiler.Text.Quoted

namespace LispCompiler.Datum

mutual

def print : Datum → String
  | list items => "'(" ++ " ".intercalate (printList items) ++ ")"
  | symbol name => name
  | integer value => toString value.toInt
  | float value => value.render
  | string text => Quoted.quote text
  | bool true => "true"
  | bool false => "false"
  | nil => "nil"

def printList : List Datum → List String
  | [] => []
  | item :: items => item.print :: printList items

end

end LispCompiler.Datum
