import LispCompiler.Text.Bytes

namespace LispCompiler

/-- A place that takes bytes, up to some number of them if there is a limit. -/
structure Sink where
  bytes : List UInt8
  room : Option Nat
  refusal : String
  deriving DecidableEq, Repr

namespace Sink

def unlimited : Sink :=
  ⟨[], none, ""⟩

def limited (room : Nat) (refusal : String) : Sink :=
  ⟨[], some room, refusal⟩

/-- Takes as many bytes as there is room for, and fails if that is not all. -/
def write (text : String) : EStateM String Sink Unit := fun sink =>
  let bytes := Bytes.ofText text
  match sink.room with
  | none => .ok () { sink with bytes := sink.bytes ++ bytes }
  | some room =>
    let filled := { sink with
      bytes := sink.bytes ++ bytes.take room, room := some (room - bytes.length) }
    if bytes.length ≤ room then .ok () filled else .error sink.refusal filled

end Sink

end LispCompiler
