import LispCompiler.Double

/-!
Decimal text of a double: the fewest digits that read back, and of those the nearest to the number.
The leading digit decides the form: between the fourth decimal place and the sixteenth whole one
the text is positional, elsewhere it has an exponent.
-/

namespace LispCompiler.Double

/-- Decimal places enough for seventeen digits of the least positive double. -/
def decimalPlaces : Nat :=
  340

def fineUnits (rank : Nat) : Nat :=
  units rank * Nat.pow 10 decimalPlaces

/-- Whether half of `point` fine units rounds to a rank. The ends of the interval that does are
halfway to its neighbours, and belong to it where the rank is even. -/
def roundsTo (rank point : Nat) : Bool :=
  let low := fineUnits (rank - 1) + fineUnits rank
  let high := fineUnits rank + fineUnits (rank + 1)
  if rank % 2 = 0 then low ≤ point && point ≤ high else low < point && point < high

/-- A digit string and the power of ten of its leading digit. -/
structure Digits where
  text : List Char
  exponent : Int
  deriving DecidableEq, Repr

def Digits.ofScaled (significand place : Nat) : Digits :=
  let text := Nat.toDigits 10 significand
  ⟨(text.reverse.dropWhile (· == '0')).reverse, (place : Int) - decimalPlaces + (text.length - 1 : Nat)⟩

/-- The multiple of ten to the `place` next to the number that rounds to it, if one of the two
neighbours does. Of two, the nearer is taken, and the upper one where both are equally near. -/
def neighbour? (rank place : Nat) : Option Nat :=
  let size := fineUnits rank
  let step := unitsPerOne * Nat.pow 10 place
  let below := size / step
  let fitsBelow := roundsTo rank (2 * (below * step))
  let fitsAbove := roundsTo rank (2 * ((below + 1) * step))
  if fitsBelow && !(fitsAbove && step ≤ 2 * (size - below * step)) then some below
  else if fitsAbove then some (below + 1)
  else none

def leadingPlace (rank : Nat) : Nat :=
  (Nat.toDigits 10 (fineUnits rank / unitsPerOne)).length - 1

def shortest (rank : Nat) : Digits :=
  let top := leadingPlace rank
  let places := (List.range 17).map (top - ·)
  match places.findSome? fun place => (neighbour? rank place).map (Digits.ofScaled · place) with
  | some digits => digits
  | none => Digits.ofScaled 0 0

def zeros (count : Nat) : List Char :=
  List.replicate count '0'

def Digits.positional (digits : Digits) : List Char :=
  match digits.exponent with
  | .negSucc places => '0' :: '.' :: (zeros places ++ digits.text)
  | .ofNat place =>
    let whole := place + 1
    if digits.text.length ≤ whole then
      digits.text ++ zeros (whole - digits.text.length) ++ ['.', '0']
    else
      digits.text.take whole ++ '.' :: digits.text.drop whole

def Digits.scientific (digits : Digits) : List Char :=
  let fraction := if digits.text.length ≤ 1 then [] else '.' :: digits.text.drop 1
  digits.text.take 1 ++ fraction ++ 'e' :: (toString digits.exponent).toList

def Digits.render (digits : Digits) : List Char :=
  if -4 ≤ digits.exponent ∧ digits.exponent < 16 then digits.positional else digits.scientific

def sign (negative : Bool) : List Char :=
  if negative then ['-'] else []

def render : Double → String
  | finite negative rank =>
    let magnitude := if rank.val = 0 then ['0', '.', '0'] else (shortest rank).render
    String.ofList (sign negative ++ magnitude)
  | infinite negative => String.ofList (sign negative ++ ['i', 'n', 'f'])
  | nan => "NaN"

end LispCompiler.Double
