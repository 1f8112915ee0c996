import LispCompiler.Datum

/-!
Templates: data with holes. Expanding a template gives the form that builds the data, out of quoted
parts, `cons` for an item and `concat` for the items that a splice yields.
-/

namespace LispCompiler

namespace Template

structure Flaw where
  marker : Marker
  operands : Nat
  deriving DecidableEq, Repr

def Flaw.message (flaw : Flaw) : String :=
  "`" ++ flaw.marker.symbol ++ "` expects 1 operand, but got " ++ toString flaw.operands

/-- What an item of a list template puts in front of the items behind it. -/
inductive Link where
  | cons (item : Datum)
  | concat (items : Datum)
  deriving DecidableEq, Repr

def Link.attach : Link → Datum → Datum
  | cons item, rest => .list [.symbol "cons", item, rest]
  | concat items, rest => .list [.symbol "concat", items, rest]

def quote (datum : Datum) : Datum :=
  .marked Marker.quote.symbol datum

def spliced? : Datum → Option (List Datum)
  | .list (head :: operands) =>
    if head.isSymbol Marker.spliceUnquote.symbol then some operands else none
  | _ => none

mutual

def expand : Datum → Except Flaw Datum
  | .list items => do
    let (links, tail) ← chain items
    return links.foldr Link.attach tail
  | atom => .ok (quote atom)

/-- The links of the items of a list template and the form for what stands behind them. The symbol
`unquote` among the items makes its one operand the form for the rest. -/
def chain : List Datum → Except Flaw (List Link × Datum)
  | [] => .ok ([], quote (.list []))
  | item :: items =>
    if item.isSymbol Marker.unquote.symbol then
      match items with
      | [operand] => .ok ([], operand)
      | operands => .error ⟨.unquote, operands.length⟩
    else
      match spliced? item with
      | some [operand] => do
        let (links, tail) ← chain items
        return (.concat operand :: links, tail)
      | some operands => .error ⟨.spliceUnquote, operands.length⟩
      | none => do
        let head ← expand item
        let (links, tail) ← chain items
        return (.cons head :: links, tail)

end

end Template

end LispCompiler
