import LispCompiler.Interpreter.Host
import LispCompiler.Proofs.Interpreter.Replies
import LispCompiler.Proofs.Outcomes

namespace LispCompiler.Interpreter

section Calls

inductive Call where
  | evalMacro (name fragment : String)
  | run (fragment : String)
  | expand (name : String) (args : List Datum)
  deriving DecidableEq, Repr

inductive Value where
  | expander (name : String)
  | nothing
  | form (form : Datum)
  deriving DecidableEq, Repr

namespace Call

def perform (settings : Settings) : Call → EStateM HostError State Value
  | evalMacro name fragment => do
    return .expander (← (host settings).evalMacro name fragment)
  | run fragment => do
    (host settings).run fragment
    return .nothing
  | expand name args => do
    return .form (← (host settings).expand name args)

def request (target : Target) : Call → EStateM HostError Channel (Option Datum)
  | evalMacro name fragment => Interpreter.request .defineMacro name fragment
  | run fragment => Interpreter.request .run "" fragment
  | expand name args => Interpreter.request .expand name (argumentText target args)

def line (target : Target) : Call → String
  | evalMacro name fragment => requestLine Command.defineMacro.name name fragment
  | run fragment => requestLine Command.run.name "" fragment
  | expand name args => requestLine Command.expand.name name (argumentText target args)

def fields (target : Target) : Call → List String
  | evalMacro name fragment => ["macro", name, fragment]
  | run fragment => ["run", "", fragment]
  | expand name args => ["expand", name, "[" ++ ", ".intercalate (target.literals args) ++ "]"]

def finish : Call → Option Datum → Except HostError Value
  | evalMacro name _, _ => .ok (.expander name)
  | run _, _ => .ok .nothing
  | expand _ _, some form => .ok (.form form)
  | expand name _, none => .error (.process ("macro `" ++ name ++ "` returned no form"))

def result (call : Call) (received : Except HostError (Option Datum)) : Except HostError Value :=
  received >>= call.finish

end Call

def heard (reply : List UInt8) : Except HostError (Option Datum) :=
  if reply.isEmpty then .error Fault.exited.toHostError
  else
    match Bytes.toText reply with
    | .ok text => decodeReply (Whitespace.trimEnd text.toList)
    | .error error => .error (Fault.lost error).toHostError

end Calls

section Conversations

def converse (talks : List (List String)) : Event → List (List String)
  | .start _ _ => talks ++ [[]]
  | .request line => talks.dropLast ++ [talks.getLastD [] ++ [line]]

/-- The requests that each interpreter got, in the order in which they were started. -/
def conversations (events : List Event) : List (List String) :=
  events.foldl converse []

theorem conversations_start (events : List Event) (program : String) (args : List String) :
    conversations (events ++ [.start program args]) = conversations events ++ [[]] := by
  rw [conversations, List.foldl_append]
  rfl

theorem conversations_request {events : List Event} {front : List (List String)} {requests : List String}
    (whole : conversations events = front ++ [requests]) (line : String) :
    conversations (events ++ [.request line]) = front ++ [requests ++ [line]] := by
  rw [conversations, List.foldl_append, ← conversations, whole]
  simp [converse]

end Conversations

section Exchanges

variable {peer : Peer}

theorem request_listening (listening : peer.listening) (command : Command) (name code : String)
    (events : List Event) :
    request command name code ⟨peer, events⟩ = settled (heard peer.respond.1)
      ⟨peer.respond.2, events ++ [.request (requestLine command.name name code)]⟩ := by
  simp only [request, exchange, listening, if_true, heard, Peer.respond]
  by_cases silent : peer.turn.readLine.1.isEmpty
  · simp only [silent, if_true, settled]
  · simp only [silent, if_false, Bool.false_eq_true]
    cases Bytes.toText peer.turn.readLine.1 with
    | error error => rfl
    | ok text =>
      dsimp only
      cases decodeReply (Whitespace.trimEnd text.toList) <;> rfl

theorem request_hungUp (gone : peer.listening = false) (command : Command) (name code : String)
    (events : List Event) :
    request command name code ⟨peer, events⟩ =
      settled (.error (Fault.lost .brokenPipe).toHostError) ⟨peer, events⟩ := by
  simp [request, exchange, gone, settled]

theorem Call.request_listening (listening : peer.listening) (call : Call) (target : Target)
    (events : List Event) :
    call.request target ⟨peer, events⟩ = settled (heard peer.respond.1)
      ⟨peer.respond.2, events ++ [.request (call.line target)]⟩ := by
  cases call <;> exact Interpreter.request_listening listening ..

theorem Call.request_hungUp (gone : peer.listening = false) (call : Call) (target : Target)
    (events : List Event) :
    call.request target ⟨peer, events⟩ =
      settled (.error (Fault.lost .brokenPipe).toHostError) ⟨peer, events⟩ := by
  cases call <;> exact Interpreter.request_hungUp gone ..

theorem talk_eq {action : EStateM HostError Channel α} {state : State} {result : Except HostError α}
    {later : Peer} {events : List Event}
    (given : action ⟨peer, state.events⟩ = settled result ⟨later, events⟩) :
    talk action peer state = settled result { state with kept := some later, events } := by
  rw [talk, given]
  cases result <;> rfl

variable {settings : Settings} {state : State}

theorem connected_kept {action : EStateM HostError Channel α} (kept : state.kept = some peer) :
    connected settings action state = talk action peer state := by
  rcases state with ⟨installed, directory, upcoming, _, events⟩
  cases kept
  rfl

theorem connected_none {action : EStateM HostError Channel α} (kept : state.kept = none) :
    connected settings action state = (do talk action (← connect settings)) state := by
  rcases state with ⟨installed, directory, upcoming, _, events⟩
  cases kept
  rfl

end Exchanges

theorem Call.perform_eq (call : Call) (settings : Settings) (state : State) :
    let run := connected settings (call.request settings.target) state
    call.perform settings state = settled (call.result (outcome run)) (left run) := by
  cases call with
  | evalMacro name fragment =>
    change EStateM.bind (EStateM.bind (connected settings _) _) _ state = _
    simp only [EStateM.bind, Call.request]
    cases connected settings (Interpreter.request .defineMacro name fragment) state <;> rfl
  | run fragment =>
    change EStateM.bind (EStateM.bind (connected settings _) _) _ state = _
    simp only [EStateM.bind, Call.request]
    cases connected settings (Interpreter.request .run "" fragment) state <;> rfl
  | expand name args =>
    change EStateM.bind (EStateM.bind (connected settings _) _) _ state = _
    simp only [EStateM.bind, Call.request]
    cases connected settings (Interpreter.request .expand name (argumentText settings.target args)) state with
    | error error after => rfl
    | ok form after => cases form <;> rfl

end LispCompiler.Interpreter
