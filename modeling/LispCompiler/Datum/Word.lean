import LispCompiler.Datum
import LispCompiler.Double.Nearest

/-!
Words: a word is one of three literal words, a number, or else a symbol. Numbers have an optional
minus sign, digits, and an optional point with digits behind it.
-/

namespace LispCompiler

/-- A number as it is written, its digits split at the point. -/
structure Numeral where
  negative : Bool
  whole : List Char
  fraction : Option (List Char)
  deriving DecidableEq, Repr

namespace Numeral

def ofUnsigned? (negative : Bool) (text : List Char) : Option Numeral :=
  let whole := text.takeWhile Char.isDigit
  if whole.isEmpty then none
  else
    match text.dropWhile Char.isDigit with
    | [] => some ⟨negative, whole, none⟩
    | '.' :: fraction =>
      if !fraction.isEmpty && fraction.all Char.isDigit then some ⟨negative, whole, some fraction⟩
      else none
    | _ => none

def ofText? : List Char → Option Numeral
  | '-' :: text => ofUnsigned? true text
  | text => ofUnsigned? false text

def applySign (negative : Bool) (magnitude : Nat) : Int :=
  if negative then -magnitude else magnitude

def toInt64? (value : Int) : Option Int64 :=
  if Int64.minValue.toInt ≤ value ∧ value ≤ Int64.maxValue.toInt then some (Int64.ofInt value)
  else none

def value? (numeral : Numeral) : Option Datum :=
  match numeral.fraction with
  | none =>
    let magnitude := Nat.ofDigitChars 10 numeral.whole 0
    (toInt64? (applySign numeral.negative magnitude)).map .integer
  | some fraction =>
    let digits := Nat.ofDigitChars 10 (numeral.whole ++ fraction) 0
    (Double.ofRatio? numeral.negative digits (Nat.pow 10 fraction.length)).map .float

end Numeral

namespace Datum

def literal? : String → Option Datum
  | "true" => some (.bool true)
  | "false" => some (.bool false)
  | "nil" => some .nil
  | _ => none

/-- What a word denotes; only a number can be out of range. -/
def ofWord? (word : String) : Option Datum :=
  match literal? word with
  | some literal => some literal
  | none =>
    match Numeral.ofText? word.toList with
    | some numeral => numeral.value?
    | none => some (.symbol word)

end Datum

end LispCompiler
