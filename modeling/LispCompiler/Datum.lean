import LispCompiler.Double
import LispCompiler.Token

namespace LispCompiler

inductive Datum where
  | integer (value : Int64)
  | float (value : Double)
  | string (text : String)
  | bool (value : Bool)
  | nil
  | symbol (name : String)
  | list (items : List Datum)
  deriving Repr

namespace Datum

mutual

def decEq : (a b : Datum) → Decidable (a = b)
  | integer a, b =>
    match b with
    | integer b => if h : a = b then isTrue (by rw [h]) else isFalse (by simpa using h)
    | float _ | string _ | bool _ | nil | symbol _ | list _ => isFalse nofun
  | float a, b =>
    match b with
    | float b => if h : a = b then isTrue (by rw [h]) else isFalse (by simpa using h)
    | integer _ | string _ | bool _ | nil | symbol _ | list _ => isFalse nofun
  | string a, b =>
    match b with
    | string b => if h : a = b then isTrue (by rw [h]) else isFalse (by simpa using h)
    | integer _ | float _ | bool _ | nil | symbol _ | list _ => isFalse nofun
  | bool a, b =>
    match b with
    | bool b => if h : a = b then isTrue (by rw [h]) else isFalse (by simpa using h)
    | integer _ | float _ | string _ | nil | symbol _ | list _ => isFalse nofun
  | nil, b =>
    match b with
    | nil => isTrue rfl
    | integer _ | float _ | string _ | bool _ | symbol _ | list _ => isFalse nofun
  | symbol a, b =>
    match b with
    | symbol b => if h : a = b then isTrue (by rw [h]) else isFalse (by simpa using h)
    | integer _ | float _ | string _ | bool _ | nil | list _ => isFalse nofun
  | list a, b =>
    match b with
    | list b =>
      match decEqList a b with
      | isTrue h => isTrue (by rw [h])
      | isFalse h => isFalse (by simpa using h)
    | integer _ | float _ | string _ | bool _ | nil | symbol _ => isFalse nofun

def decEqList : (as bs : List Datum) → Decidable (as = bs)
  | [], [] => isTrue rfl
  | [], _ :: _ => isFalse nofun
  | _ :: _, [] => isFalse nofun
  | a :: as, b :: bs =>
    match decEq a b, decEqList as bs with
    | isTrue h, isTrue t => isTrue (by rw [h, t])
    | isFalse h, _ => isFalse (by simp [h])
    | _, isFalse t => isFalse (by simp [t])

end

instance : DecidableEq Datum :=
  decEq

instance : Inhabited Datum :=
  ⟨nil⟩

/-- The two-element list that a quote mark abbreviates. -/
def marked (marker : String) (operand : Datum) : Datum :=
  list [symbol marker, operand]

def symbol? : Datum → Option String
  | symbol name => some name
  | _ => none

def items? : Datum → Option (List Datum)
  | list items => some items
  | _ => none

def isSymbol (name : String) (datum : Datum) : Bool :=
  datum.symbol? == some name

def head? (datum : Datum) : Option String := do
  let items ← datum.items?
  let first ← items.head?
  first.symbol?

def operand? (marker : String) : Datum → Option Datum
  | list [head, operand] => if head.isSymbol marker then some operand else none
  | _ => none

end Datum

end LispCompiler
