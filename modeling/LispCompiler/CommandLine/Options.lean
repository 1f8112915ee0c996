import LispCompiler.Target

namespace LispCompiler.CommandLine

inductive Stage where
  | tokens
  | ast
  | code
  deriving DecidableEq, Repr

structure Options where
  target : Target
  stage : Stage
  prelude : Option String
  interpreter : Option String
  detached : Bool
  file : Option String
  deriving DecidableEq, Repr

end LispCompiler.CommandLine
