import LispCompiler.Interpreter.Peer
import LispCompiler.Proofs.Text.Lines

/-!
What an interpreter says in return for its requests. Main statement: what is read behind a request is
the line of the interpreter's output that has the request's number, whatever its turns are.
-/

namespace LispCompiler

namespace Bytes

theorem lines_tail (bytes : List UInt8) : (lines bytes).tail = lines (splitLine bytes).2 := by
  cases bytes with
  | nil => rw [lines, splitLine, List.dropWhile_nil, List.tail_nil, lines]
  | cons byte rest => rw [lines, List.tail_cons]

theorem lines_head (bytes : List UInt8) : (lines bytes).headD [] = (splitLine bytes).1 := by
  cases bytes with
  | nil => rw [lines, splitLine, List.dropWhile_nil, List.headD_nil]
  | cons byte rest => rw [lines, List.headD_cons]

/-- Where there is a whole line, what is written behind it later changes nothing about it. -/
theorem splitLine_append {bytes : List UInt8} (whole : newline ∈ bytes) (later : List UInt8) :
    splitLine (bytes ++ later) = ((splitLine bytes).1, (splitLine bytes).2 ++ later) := by
  rcases List.eq_append_cons_of_mem whole with ⟨line, rest, rfl, unbroken⟩
  rw [List.append_assoc, List.cons_append, splitLine_line unbroken, splitLine_line unbroken]

end Bytes

namespace Interpreter

def spoken : List Turn → List UInt8
  | [] => []
  | .answer line :: turns => line ++ Bytes.newline :: spoken turns
  | .farewell bytes :: _ => bytes

def patience : List Turn → Nat
  | [] => 0
  | .answer _ :: turns => patience turns + 1
  | .farewell _ :: _ => 0

namespace Peer

def stream (peer : Peer) : List UInt8 :=
  peer.unread ++ if peer.listening then spoken peer.turns else []

def replies (peer : Peer) : List (List UInt8) :=
  Bytes.lines peer.stream

def capacity (peer : Peer) : Nat :=
  if peer.listening then patience peer.turns + 1 else 0

def respond (peer : Peer) : List UInt8 × Peer :=
  peer.turn.readLine

theorem replies_start (turns : List Turn) : (start turns).replies = Bytes.lines (spoken turns) := by
  simp [replies, stream, start]

/-- Answers of one line each are the first replies. -/
theorem replies_answers {answers : List (List UInt8)}
    (unbroken : ∀ line ∈ answers, Bytes.newline ∉ line) (turns : List Turn) :
    (start (answers.map .answer ++ turns)).replies =
      answers.map (· ++ [Bytes.newline]) ++ (start turns).replies := by
  simp only [replies_start]
  induction answers with
  | nil => rfl
  | cons line answers ih =>
    rcases List.forall_mem_cons.mp unbroken with ⟨first, others⟩
    calc Bytes.lines (spoken ((line :: answers).map .answer ++ turns))
        = Bytes.lines (line ++ Bytes.newline :: spoken (answers.map .answer ++ turns)) := rfl
      _ = (line ++ [Bytes.newline]) :: Bytes.lines (spoken (answers.map .answer ++ turns)) :=
        Bytes.lines_line first
      _ = (line :: answers).map (· ++ [Bytes.newline]) ++ Bytes.lines (spoken turns) := by
        rw [ih others]
        rfl

variable {peer origin : Peer} {count : Nat}

theorem listening_iff : peer.listening ↔ 0 < peer.capacity := by
  unfold capacity
  split
  · next listening => simp [listening]
  · next gone => simp [gone]

theorem respond_stream (listening : peer.listening) :
    peer.respond.1 = (Bytes.splitLine peer.stream).1 ∧
      peer.respond.2.stream = (Bytes.splitLine peer.stream).2 := by
  cases turns : peer.turns with
  | nil => simp [respond, turn, readLine, stream, turns, listening, spoken]
  | cons next later =>
    cases next with
    | answer line =>
      have whole : Bytes.newline ∈ peer.unread ++ line ++ [Bytes.newline] := by simp
      have turned : peer.turn =
          { peer with turns := later, unread := peer.unread ++ line ++ [Bytes.newline] } := by
        rw [turn, turns]
      have streams : peer.stream = peer.unread ++ line ++ [Bytes.newline] ++ spoken later := by
        simp [stream, turns, listening, spoken]
      rw [respond, turned, streams, Bytes.splitLine_append whole]
      simp [readLine, stream, listening]
    | farewell bytes => simp [respond, turn, readLine, stream, turns, listening, spoken]

theorem respond_capacity (listening : peer.listening) : peer.respond.2.capacity = peer.capacity - 1 := by
  cases turns : peer.turns with
  | nil => simp [respond, turn, readLine, capacity, turns, listening, patience]
  | cons next later =>
    cases next with
    | answer line => simp [respond, turn, readLine, capacity, turns, listening, patience]
    | farewell bytes => simp [respond, turn, readLine, capacity, turns, listening, patience]

/-- An interpreter after so many requests and as many replies. -/
structure Follows (peer origin : Peer) (count : Nat) : Prop where
  unheard : peer.replies = origin.replies.drop count
  capacity : peer.capacity = origin.capacity - count

theorem follows_self (peer : Peer) : peer.Follows peer 0 :=
  ⟨rfl, rfl⟩

theorem Follows.listening (follows : peer.Follows origin count) :
    peer.listening ↔ count < origin.capacity := by
  rw [listening_iff, follows.capacity]
  omega

theorem Follows.reply (follows : peer.Follows origin count) (listening : peer.listening) :
    peer.respond.1 = origin.replies.getD count [] := by
  calc peer.respond.1
      = (Bytes.splitLine peer.stream).1 := (respond_stream listening).1
    _ = peer.replies.headD [] := (Bytes.lines_head peer.stream).symm
    _ = (origin.replies.drop count).headD [] := by rw [follows.unheard]
    _ = origin.replies.getD count [] := by simp [List.headD_eq_head?_getD]

theorem Follows.respond (follows : peer.Follows origin count) (listening : peer.listening) :
    peer.respond.2.Follows origin (count + 1) where
  unheard := by
    rw [replies, (respond_stream listening).2, ← Bytes.lines_tail]
    change peer.replies.tail = _
    rw [follows.unheard, List.tail_drop]
  capacity := by
    rw [respond_capacity listening, follows.capacity]
    omega

end Peer

end Interpreter

end LispCompiler
