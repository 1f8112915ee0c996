import LispCompiler.Datum

/-!
Levels of list nesting: atoms have none and the empty list has one. The count visits the data with
an explicit list of what is still to be visited, so that its own recursion does not nest.
-/

namespace LispCompiler

def maxNesting : Nat :=
  256

namespace Datum

mutual

def size : Datum → Nat
  | list items => 1 + sizeList items
  | _ => 1

def sizeList : List Datum → Nat
  | [] => 0
  | item :: items => item.size + sizeList items

end

theorem size_pos (datum : Datum) : 0 < datum.size := by
  unfold size
  split <;> omega

/-- Data that are still to be visited, each with the number of lists around it. -/
abbrev Pending :=
  List (Datum × Nat)

def Pending.size (pending : Pending) : Nat :=
  sizeList (pending.map Prod.fst)

theorem sizeList_append (left right : List Datum) :
    sizeList (left ++ right) = sizeList left + sizeList right := by
  induction left with
  | nil => simp [sizeList]
  | cons item items ih => simp [sizeList, ih, Nat.add_assoc]

/-- The largest level among `best` and the lists of `pending`. -/
def deepest (pending : Pending) (best : Nat) : Nat :=
  match pending with
  | [] => best
  | (list items, level) :: rest =>
    deepest (items.map (·, level + 1) ++ rest) (max best (level + 1))
  | (atom, _) :: rest =>
    have := atom.size_pos
    deepest rest best
termination_by pending.size
decreasing_by
  · simp only [Pending.size, List.map_append, List.map_map, List.map_cons, sizeList, size]
    rw [sizeList_append]
    simp [Function.comp_def]
  · simp only [Pending.size, List.map_cons, sizeList]
    omega

def depth (datum : Datum) : Nat :=
  deepest [(datum, 0)] 0

end Datum

end LispCompiler
