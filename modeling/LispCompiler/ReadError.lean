import LispCompiler.Datum.Depth
import LispCompiler.Text.Quoted

namespace LispCompiler

namespace ReadError

inductive Cause where
  | unbalanced
  | mismatched (expected actual : Token.Kind)
  | unexpectedCloser
  | unexpectedEof
  | numberOutOfRange
  | invalidString (flaw : Quoted.Flaw)
  | unclosedString
  | nestingTooDeep
  deriving DecidableEq, Repr

def Cause.message : Cause → String
  | unbalanced => "unbalanced parentheses"
  | mismatched expected actual =>
    "mismatched delimiter, expected `" ++ expected.delimiterText ++ "` but got `" ++
      actual.delimiterText ++ "`"
  | unexpectedCloser => "unexpected closing delimiter"
  | unexpectedEof => "unexpected end of input after prefix"
  | numberOutOfRange => "number literal out of range"
  | invalidString flaw => "invalid string literal: " ++ flaw.message
  | unclosedString => "unclosed string"
  | nestingTooDeep => "forms nested deeper than " ++ toString maxNesting ++ " levels"

end ReadError

/-- Why reading failed and which region of the source is to blame. -/
structure ReadError where
  span : Span
  cause : ReadError.Cause
  deriving DecidableEq, Repr

def ReadError.message (error : ReadError) : String :=
  error.cause.message

def ReadError.located (error : ReadError) : String :=
  error.span.render ++ ": " ++ error.message

end LispCompiler
