import LispCompiler.Text.Bytes

namespace LispCompiler.Interpreter

inductive Turn where
  | answer (line : List UInt8)
  | farewell (bytes : List UInt8)
  deriving DecidableEq, Repr

/-- An interpreter with the turns it is going to take. Without a turn left it hangs up. It may have
written something, or hung up, before its first request. -/
structure Peer where
  turns : List Turn
  unread : List UInt8
  listening : Bool
  deriving DecidableEq, Repr

namespace Peer

def start (turns : List Turn) : Peer :=
  ⟨turns, [], true⟩

def turn (peer : Peer) : Peer :=
  match peer.turns with
  | [] => { peer with listening := false }
  | .answer line :: turns => { peer with turns, unread := peer.unread ++ line ++ [Bytes.newline] }
  | .farewell bytes :: turns => ⟨turns, peer.unread ++ bytes, false⟩

/-- Reads a line of what the interpreter wrote; at the end of it the line is empty. -/
def readLine (peer : Peer) : List UInt8 × Peer :=
  let (line, unread) := Bytes.splitLine peer.unread
  (line, { peer with unread })

end Peer

inductive Event where
  | start (program : String) (args : List String)
  | request (line : String)
  deriving DecidableEq, Repr

end LispCompiler.Interpreter
