import LispCompiler.Directory
import LispCompiler.Interpreter.Message
import LispCompiler.Interpreter.Peer
import LispCompiler.Interpreter.ServiceLoop
import LispCompiler.Target.Fragment

/-!
A host whose code runs in an interpreter. The interpreter is started by the first request and gets
the target's prologue before anything else. It is kept once it has accepted the prologue; until
then every request starts another one.
-/

namespace LispCompiler.Interpreter

structure Settings where
  target : Target
  program : String
  deriving DecidableEq, Repr

def Settings.ofTarget (target : Target) : Settings :=
  ⟨target, defaultProgram target⟩

/-- The programs that can be started, the directory in which others are looked for, the interpreters
that will be, as each is when it has been started, the one that is kept, and all that happened so
far. -/
structure State where
  installed : List String
  directory : Directory
  upcoming : List Peer
  kept : Option Peer
  events : List Event
  deriving DecidableEq, Repr

def State.start (installed : List String) (directory : Directory)
    (scripts : List (List Turn)) : State :=
  ⟨installed, directory, scripts.map .start, none, []⟩

structure Channel where
  peer : Peer
  events : List Event
  deriving DecidableEq, Repr

/-- Sends a line and reads one back. An interpreter that has hung up gets no request. -/
def exchange (line : String) : EStateM Fault Channel String := fun channel =>
  if channel.peer.listening then
    let (bytes, peer) := channel.peer.turn.readLine
    let channel := ⟨peer, channel.events ++ [.request line]⟩
    if bytes.isEmpty then .error .exited channel
    else
      match Bytes.toText bytes with
      | .ok text => .ok text channel
      | .error error => .error (.lost error) channel
  else .error (.lost .brokenPipe) channel

def request (command : Command) (name code : String) :
    EStateM HostError Channel (Option Datum) := fun channel =>
  match exchange (requestLine command.name name code) channel with
  | .error fault channel => .error fault.toHostError channel
  | .ok line channel =>
    match decodeReply (Whitespace.trimEnd line.toList) with
    | .ok form => .ok form channel
    | .error error => .error error channel

/-- Starts an interpreter and keeps it if it accepts the prologue. -/
def connect (settings : Settings) : EStateM HostError State Peer := fun state =>
  if state.installed.contains settings.program then
    let peer := state.upcoming.headD (.start [])
    let started := Event.start settings.program (arguments settings.target)
    let upcoming := state.upcoming.tail
    match request .run "" settings.target.prologue ⟨peer, state.events ++ [started]⟩ with
    | .ok _ ⟨peer, events⟩ => .ok peer { state with upcoming, kept := some peer, events }
    | .error error ⟨_, events⟩ => .error error { state with upcoming, events }
  else
    let refusal := state.directory.refusal settings.program
    .error (Fault.cannotStart settings.program refusal).toHostError state

def talk (action : EStateM HostError Channel α) (peer : Peer) : EStateM HostError State α :=
  fun state =>
    match action ⟨peer, state.events⟩ with
    | .ok value ⟨peer, events⟩ => .ok value { state with kept := some peer, events }
    | .error error ⟨peer, events⟩ => .error error { state with kept := some peer, events }

def connected (settings : Settings) (action : EStateM HostError Channel α) :
    EStateM HostError State α := do
  match (← get).kept with
  | some peer => talk action peer
  | none => talk action (← connect settings)

def argumentText (target : Target) (args : List Datum) : String :=
  "[" ++ commaList (target.literals args) ++ "]"

def host (settings : Settings) : Host State String where
  evalMacro name fragment := do
    let _ ← connected settings (request .defineMacro name fragment)
    return name
  expand name args := do
    match ← connected settings (request .expand name (argumentText settings.target args)) with
    | some form => return form
    | none => throw (Fault.noForm name).toHostError
  run fragment := do
    let _ ← connected settings (request .run "" fragment)

end LispCompiler.Interpreter
