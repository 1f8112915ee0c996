namespace LispCompiler

inductive SpecialForm where
  | apply
  | block
  | define
  | defineMacro
  | sequence
  | function
  | conditional
  | send
  | quasiquote
  | quote
  | guard
  deriving DecidableEq, Repr

namespace SpecialForm

def name : SpecialForm → String
  | apply => "apply"
  | block => "block"
  | define => "def"
  | defineMacro => "defmacro"
  | sequence => "do"
  | function => "fn"
  | conditional => "if"
  | send => "."
  | quasiquote => "quasiquote"
  | quote => "quote"
  | guard => "try"

def ofName? : String → Option SpecialForm
  | "apply" => some apply
  | "block" => some block
  | "def" => some define
  | "defmacro" => some defineMacro
  | "do" => some sequence
  | "fn" => some function
  | "if" => some conditional
  | "." => some send
  | "quasiquote" => some quasiquote
  | "quote" => some quote
  | "try" => some guard
  | _ => none

end SpecialForm

end LispCompiler
