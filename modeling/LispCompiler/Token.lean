import LispCompiler.Span

namespace LispCompiler

inductive Delimiter where
  | paren
  | bracket
  deriving DecidableEq, Repr

inductive Marker where
  | quote
  | quasiquote
  | unquote
  | spliceUnquote
  deriving DecidableEq, Repr

/-- The symbol that heads the list which the abbreviation stands for. -/
def Marker.symbol : Marker → String
  | quote => "quote"
  | quasiquote => "quasiquote"
  | unquote => "unquote"
  | spliceUnquote => "splice_unquote"

namespace Token

inductive Kind where
  | opener (delimiter : Delimiter)
  | closer (delimiter : Delimiter)
  | marker (marker : Marker)
  | plainString
  | escapedString
  | unclosedString
  | comment
  | word
  | eof
  deriving DecidableEq, Repr

namespace Kind

def name : Kind → String
  | opener .paren => "LParen"
  | closer .paren => "RParen"
  | opener .bracket => "LBracket"
  | closer .bracket => "RBracket"
  | marker .quote => "Quote"
  | marker .quasiquote => "Quasiquote"
  | marker .unquote => "Unquote"
  | marker .spliceUnquote => "SpliceUnquote"
  | plainString => "String"
  | escapedString => "EscapedString"
  | unclosedString => "ErrorUnclosedString"
  | comment => "Comment"
  | word => "Word"
  | eof => "Eof"

def delimiterText : Kind → String
  | opener .paren => "("
  | closer .paren => ")"
  | opener .bracket => "["
  | closer .bracket => "]"
  | eof => "<eof>"
  | _ => "<token>"

def isError : Kind → Bool
  | unclosedString => true
  | _ => false

def isOpener : Kind → Bool
  | opener _ => true
  | _ => false

def isCloser : Kind → Bool
  | closer _ => true
  | _ => false

def balancing : Kind → Option Kind
  | opener delimiter => some (closer delimiter)
  | _ => none

end Kind

end Token

/-- A lexeme with its kind and the byte offset at which it starts. -/
structure Token where
  kind : Token.Kind
  start : Nat
  text : String
  deriving DecidableEq, Repr

namespace Token

def span (token : Token) : Span :=
  ⟨token.start, byteLength token.text.toList⟩

def isEof (token : Token) : Bool :=
  token.kind == .eof

def inner (token : Token) : List Char :=
  (token.text.toList.drop 1).dropLast

def describe (token : Token) : String :=
  "Token(" ++ token.kind.name ++ ", " ++ token.span.render ++ ")"

end Token

end LispCompiler
