import LispCompiler.SystemError

namespace LispCompiler.Bytes

def ofText (text : String) : List UInt8 :=
  text.toUTF8.data.toList

def toText (bytes : List UInt8) : Except SystemError String :=
  match String.fromUTF8? ⟨bytes.toArray⟩ with
  | some text => .ok text
  | none => .error .invalidText

def newline : UInt8 :=
  10

/-- The first line, with its end if it has one, and the bytes behind it. -/
def splitLine (bytes : List UInt8) : List UInt8 × List UInt8 :=
  match bytes.dropWhile (· != newline) with
  | [] => (bytes, [])
  | _ :: rest => (bytes.takeWhile (· != newline) ++ [newline], rest)

theorem splitLine_length (bytes : List UInt8) (some : bytes ≠ []) :
    (splitLine bytes).2.length < bytes.length := by
  have shorter : (bytes.dropWhile (· != newline)).length ≤ bytes.length :=
    (List.dropWhile_sublist _).length_le
  unfold splitLine
  split
  · exact List.length_pos_iff.mpr some
  · next behind =>
    rw [behind] at shorter
    exact shorter

end LispCompiler.Bytes
