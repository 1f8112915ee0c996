namespace LispCompiler

def byteLength : List Char → Nat
  | [] => 0
  | c :: text => c.utf8Size + byteLength text

structure Span where
  lo : Nat
  len : Nat
  deriving DecidableEq, Repr

namespace Span

def hi (span : Span) : Nat :=
  span.lo + span.len

def between (lo hi : Nat) : Span :=
  ⟨lo, hi - lo⟩

def through (first last : Span) : Span :=
  between first.lo last.hi

def maxPosition : Nat :=
  0xffffffffffffffff

def shift (position : Nat) (delta : Int) : Nat :=
  min (position + delta).toNat maxPosition

/-- Moves both ends; an end that would pass the start stops there. -/
def offset (span : Span) (lo hi : Int) : Span :=
  let start := shift span.lo lo
  between start (max (shift span.hi hi) start)

def render (span : Span) : String :=
  toString span.lo ++ ".." ++ toString span.hi

def describe (span : Span) : String :=
  "Span(" ++ span.render ++ ", len: " ++ toString span.len ++ ")"

def dropBytes : Nat → List Char → List Char
  | _, [] => []
  | 0, text => text
  | count + 1, c :: text => dropBytes (count + 1 - c.utf8Size) text

def takeBytes : Nat → List Char → List Char
  | _, [] => []
  | 0, _ => []
  | count + 1, c :: text => c :: takeBytes (count + 1 - c.utf8Size) text

def slice (span : Span) (source : String) : String :=
  String.ofList (takeBytes span.len (dropBytes span.lo source.toList))

end Span

end LispCompiler
