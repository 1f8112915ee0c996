import LispCompiler.Proofs.Interpreter.Answers
import LispCompiler.Proofs.Interpreter.Requests

namespace LispCompiler.Interpreter

section Scripts

variable (peers : List Peer)

def interpreter (number : Nat) : Peer :=
  peers.getD number (.start [])

def reply (number request : Nat) : List UInt8 :=
  (interpreter peers number).replies.getD request []

def Takes (number request : Nat) : Prop :=
  request < (interpreter peers number).capacity

def Acknowledges (number : Nat) : Prop :=
  Takes peers number 0 ∧ ∃ form, Says (reply peers number 0) (.ok form)

end Scripts

def Asks (line : String) (fields : List String) : Prop :=
  Json.IsArray line.toList fields

def greeting (target : Target) : List String :=
  ["run", "", target.prologue]

/-- The first request of every interpreter is the greeting. One that does not accept it gets no other
request, and after one that accepts it no other is started. -/
structure Orderly (target : Target) (peers : List Peer) (talks : List (List String)) : Prop where
  greeted : ∀ requests ∈ talks, ∀ line ∈ requests.head?, Asks line (greeting target)
  refused : ∀ number requests, talks[number]? = some requests → ¬Acknowledges peers number →
    requests.length ≤ 1
  last : ∀ number < talks.length, Acknowledges peers number → number + 1 = talks.length

structure Moment where
  installed : List String
  directory : Directory
  call : Call
  deriving DecidableEq, Repr

def Moment.around (moment : Moment) (state : State) : State :=
  { state with installed := moment.installed, directory := moment.directory }

def Moment.perform (settings : Settings) (moment : Moment) (state : State) :
    EStateM.Result HostError State Value :=
  moment.call.perform settings (moment.around state)

section Rules

variable (settings : Settings) (peers : List Peer) (moment : Moment)

def Alone (talks : List (List String)) : Prop :=
  ∀ number < talks.length, ¬Acknowledges peers number

inductive Reaches : (before after : List (List String)) → Prop
  | kept {front : List (List String)} {requests : List String} (accepted : Acknowledges peers front.length) :
      Reaches (front ++ [requests]) (front ++ [requests])
  | started {talks : List (List String)} {line : String} (alone : Alone peers talks)
      (installed : moment.installed.contains settings.program)
      (accepted : Acknowledges peers talks.length) (asks : Asks line (greeting settings.target)) :
      Reaches talks (talks ++ [[line]])

/-- What comes of a call, and the conversations that it leaves. -/
inductive Proceeds : (before : List (List String)) → Except HostError Value →
    (after : List (List String)) → Prop
  | missing {talks : List (List String)} (alone : Alone peers talks)
      (missing : moment.installed.contains settings.program = false) :
      Proceeds talks (.error (.process ("failed to start `" ++ settings.program ++ "`: " ++
        (moment.directory.refusal settings.program).message))) talks
  | gone {talks : List (List String)} (alone : Alone peers talks)
      (installed : moment.installed.contains settings.program)
      (hungUp : ¬Takes peers talks.length 0) :
      Proceeds talks (.error (.process "lost the interpreter: Broken pipe (os error 32)")) (talks ++ [[]])
  | refused {talks : List (List String)} {line : String} {error : HostError} (alone : Alone peers talks)
      (installed : moment.installed.contains settings.program) (takes : Takes peers talks.length 0)
      (asks : Asks line (greeting settings.target))
      (said : Says (reply peers talks.length 0) (.error error)) :
      Proceeds talks (.error error) (talks ++ [[line]])
  | answered {talks front : List (List String)} {requests : List String} {line : String}
      {received : Except HostError (Option Datum)}
      (reaches : Reaches settings peers moment talks (front ++ [requests]))
      (takes : Takes peers front.length requests.length)
      (asks : Asks line (moment.call.fields settings.target))
      (said : Says (reply peers front.length requests.length) received) :
      Proceeds talks (moment.call.result received) (front ++ [requests ++ [line]])
  | lost {talks front : List (List String)} {requests : List String}
      (reaches : Reaches settings peers moment talks (front ++ [requests]))
      (hungUp : ¬Takes peers front.length requests.length) :
      Proceeds talks (.error (.process "lost the interpreter: Broken pipe (os error 32)"))
        (front ++ [requests])

end Rules

section Requests

def greetingLine (target : Target) : String :=
  requestLine Command.run.name "" target.prologue

theorem asks_greetingLine (target : Target) : Asks (greetingLine target) (greeting target) :=
  isArray_requestLine ..

theorem Call.asks_line (call : Call) (target : Target) : Asks (call.line target) (call.fields target) := by
  cases call <;> exact isArray_requestLine ..

end Requests

section Invariant

variable {settings : Settings} {target : Target} {peers : List Peer}

/-- Who is kept: nobody as long as no interpreter accepted the prologue, and then the one that did,
which has answered all of its requests. -/
inductive Keeps (target : Target) (peers : List Peer) : List (List String) → Option Peer → Prop
  | nobody {talks : List (List String)} (alone : Alone peers talks)
      (greeted : ∀ requests ∈ talks, requests <+: [greetingLine target]) :
      Keeps target peers talks none
  | one {front : List (List String)} {more : List String} {peer : Peer} (alone : Alone peers front)
      (greeted : ∀ requests ∈ front, requests <+: [greetingLine target])
      (accepted : Acknowledges peers front.length)
      (follows : peer.Follows (interpreter peers front.length) (more.length + 1)) :
      Keeps target peers (front ++ [greetingLine target :: more]) (some peer)

structure InStep (target : Target) (peers : List Peer) (state : State) : Prop where
  upcoming : state.upcoming = peers.drop (conversations state.events).length
  keeps : Keeps target peers (conversations state.events) state.kept

structure Advances (settings : Settings) (peers : List Peer) (moment : Moment)
    (before : List (List String)) (run : EStateM.Result HostError State (Option Datum)) : Prop where
  inStep : InStep settings.target peers (left run)
  proceeds : Proceeds settings peers moment before (moment.call.result (outcome run))
    (conversations (left run).events)

namespace Keeps

variable {talks : List (List String)}

theorem alone (keeps : Keeps target peers talks none) : Alone peers talks := by
  cases keeps with
  | nobody alone greeted => exact alone

theorem refuse {requests : List String} (keeps : Keeps target peers talks none)
    (unaccepted : ¬Acknowledges peers talks.length) (greeted : requests <+: [greetingLine target]) :
    Keeps target peers (talks ++ [requests]) none := by
  cases keeps with
  | nobody alone others =>
    refine .nobody ?_ ?_
    · intro number started
      rw [List.length_append, List.length_singleton] at started
      rcases Nat.lt_succ_iff_lt_or_eq.mp started with earlier | rfl
      · exact alone number earlier
      · exact unaccepted
    · rw [List.forall_mem_append, List.forall_mem_singleton]
      exact ⟨others, greeted⟩

theorem accept {peer : Peer} (keeps : Keeps target peers talks none)
    (accepted : Acknowledges peers talks.length)
    (follows : peer.Follows (interpreter peers talks.length) 1) :
    Keeps target peers (talks ++ [[greetingLine target]]) (some peer) := by
  cases keeps with
  | nobody alone greeted => exact .one alone greeted accepted follows

theorem asks_head {requests : List String} (greeted : requests <+: [greetingLine target]) :
    ∀ line ∈ requests.head?, Asks line (greeting target) := by
  rcases List.prefix_cons_iff.mp greeted with rfl | ⟨more, rfl, -⟩
  · nofun
  · rintro _ ⟨⟩
    exact asks_greetingLine target

theorem orderly {kept : Option Peer} (keeps : Keeps target peers talks kept) :
    Orderly target peers talks := by
  cases keeps with
  | nobody alone greeted =>
    refine ⟨?_, ?_, ?_⟩
    · intro requests member
      exact asks_head (greeted requests member)
    · intro number requests found _
      exact (greeted requests (List.mem_of_getElem? found)).length_le
    · intro number started accepted
      exact absurd accepted (alone number started)
  | @one front more peer alone greeted accepted follows =>
    refine ⟨?_, ?_, ?_⟩
    · rw [List.forall_mem_append, List.forall_mem_singleton]
      refine ⟨fun requests member => asks_head (greeted requests member), ?_⟩
      rintro _ ⟨⟩
      exact asks_greetingLine target
    · intro number requests found unaccepted
      have before : number < front.length := by
        have bound : number < front.length + 1 := by
          simpa using (List.getElem?_eq_some_iff.mp found).1
        have other : number ≠ front.length := by
          rintro rfl
          exact unaccepted accepted
        omega
      rw [List.getElem?_append_left before] at found
      exact (greeted requests (List.mem_of_getElem? found)).length_le
    · intro number started also
      rw [List.length_append, List.length_singleton] at started ⊢
      apply Decidable.byContradiction
      intro earlier
      exact alone number (by omega) also

end Keeps

section Connecting

variable {moment : Moment} {state : State}

def opened (settings : Settings) (events : List Event) : List Event :=
  events ++ [.start settings.program (arguments settings.target)] ++
    [.request (greetingLine settings.target)]

theorem conversations_opened (settings : Settings) (events : List Event) :
    conversations (opened settings events) =
      conversations events ++ [[greetingLine settings.target]] :=
  conversations_request (conversations_start ..) _

theorem connect_missing (missing : moment.installed.contains settings.program = false) :
    connect settings (moment.around state) = .error (.process ("failed to start `" ++ settings.program ++
      "`: " ++ (moment.directory.refusal settings.program).message)) (moment.around state) := by
  simp only [connect, Moment.around, missing, Bool.false_eq_true, if_false]
  rfl

variable {peer : Peer} (next : state.upcoming.headD (.start []) = peer)
  (installed : moment.installed.contains settings.program)

include next installed

theorem connect_gone (gone : peer.listening = false) :
    connect settings (moment.around state) =
      .error (.process "lost the interpreter: Broken pipe (os error 32)")
        { moment.around state with
          upcoming := state.upcoming.tail
          events := state.events ++ [.start settings.program (arguments settings.target)] } := by
  simp only [connect, Moment.around, installed, if_true, next, request_hungUp gone, settled]
  rfl

theorem connect_listening (listening : peer.listening) :
    connect settings (moment.around state) =
      match heard peer.respond.1 with
      | .ok _ => .ok peer.respond.2
        { moment.around state with
          upcoming := state.upcoming.tail
          kept := some peer.respond.2
          events := opened settings state.events }
      | .error error => .error error
        { moment.around state with
          upcoming := state.upcoming.tail
          events := opened settings state.events } := by
  simp only [connect, Moment.around, installed, if_true, next, request_listening listening]
  cases heard peer.respond.1 <;> rfl

end Connecting

theorem InStep.talk {moment : Moment} {before : List (List String)} {state : State} {peer : Peer}
    (inStep : InStep settings.target peers state) (kept : state.kept = some peer)
    (reaches : Reaches settings peers moment before (conversations state.events)) :
    Advances settings peers moment before
      (Interpreter.talk (moment.call.request settings.target) peer state) := by
  rcases inStep with ⟨upcoming, keeps⟩
  rw [kept] at keeps
  generalize talks : conversations state.events = all at keeps reaches upcoming
  cases keeps with
  | @one front more _ alone greeted accepted follows =>
    -- an interpreter that has hung up gets no request, and its conversation stays as it is
    by_cases takes : Takes peers front.length (more.length + 1)
    · have listening := follows.listening.mpr takes
      have spoken := conversations_request talks (moment.call.line settings.target)
      rw [talk_eq (moment.call.request_listening listening _ _)]
      refine ⟨?_, ?_⟩
      · rw [left_settled]
        refine ⟨?_, ?_⟩
        · rw [upcoming, spoken]
          simp
        · rw [spoken]
          exact .one alone greeted accepted (by simpa using follows.respond listening)
      · rw [left_settled, outcome_settled, spoken, follows.reply listening]
        exact .answered reaches takes (moment.call.asks_line settings.target) (says_heard _)
    · have gone : peer.listening = false := by
        simpa using mt follows.listening.mp takes
      rw [talk_eq (moment.call.request_hungUp gone _ _)]
      refine ⟨?_, ?_⟩
      · rw [left_settled]
        refine ⟨?_, ?_⟩
        · rw [upcoming, talks]
        · rw [talks]
          exact .one alone greeted accepted follows
      · rw [left_settled, outcome_settled, talks]
        exact .lost reaches takes

section Starting

variable {moment : Moment} {state : State} (inStep : InStep settings.target peers state)
  (kept : state.kept = none)

include inStep

theorem InStep.next :
    state.upcoming.headD (.start []) = interpreter peers (conversations state.events).length := by
  rw [inStep.upcoming]
  simp [List.headD_eq_head?_getD, interpreter]

theorem InStep.others (requests : List String) :
    state.upcoming.tail = peers.drop (conversations state.events ++ [requests]).length := by
  rw [inStep.upcoming]
  simp

include kept

theorem InStep.keeps_none : Keeps settings.target peers (conversations state.events) none :=
  kept ▸ inStep.keeps

theorem InStep.connect_missing (missing : moment.installed.contains settings.program = false) :
    Advances settings peers moment (conversations state.events)
      (connected settings (moment.call.request settings.target) (moment.around state)) := by
  have nobody : (moment.around state).kept = none := kept
  rw [connected_none nobody, bind_of_error (Interpreter.connect_missing missing)]
  exact ⟨⟨inStep.upcoming, inStep.keeps⟩, .missing (inStep.keeps_none kept).alone missing⟩

variable (installed : moment.installed.contains settings.program)

include installed

theorem InStep.connect_gone (hungUp : ¬Takes peers (conversations state.events).length 0) :
    Advances settings peers moment (conversations state.events)
      (connected settings (moment.call.request settings.target) (moment.around state)) := by
  have nobody : (moment.around state).kept = none := kept
  have keeps := inStep.keeps_none kept
  have gone : (interpreter peers (conversations state.events).length).listening = false := by
    simpa using mt Peer.listening_iff.mp hungUp
  have started := conversations_start state.events settings.program (arguments settings.target)
  rw [connected_none nobody, bind_of_error (Interpreter.connect_gone inStep.next installed gone)]
  refine ⟨⟨?_, ?_⟩, ?_⟩
  · rw [left, started]
    exact inStep.others []
  · rw [left, started, nobody]
    exact keeps.refuse (fun accepted => hungUp accepted.1) List.nil_prefix
  · rw [left, started]
    exact .gone keeps.alone installed hungUp

/-- The first request is taken and answered. Only then does it matter what the answer is. -/
theorem InStep.connect_answered (takes : Takes peers (conversations state.events).length 0) :
    Advances settings peers moment (conversations state.events)
      (connected settings (moment.call.request settings.target) (moment.around state)) := by
  have nobody : (moment.around state).kept = none := kept
  have keeps := inStep.keeps_none kept
  have listening := Peer.listening_iff.mpr takes
  have opens := connect_listening inStep.next installed listening
  rw [(Peer.follows_self _).reply listening] at opens
  rw [connected_none nobody]
  cases said : heard (reply peers (conversations state.events).length 0) with
  | error error =>
    have unaccepted : ¬Acknowledges peers (conversations state.events).length := by
      rintro ⟨-, form, accepted⟩
      cases said.symm.trans (heard_eq_iff.mpr accepted)
    rw [← reply, said] at opens
    rw [bind_of_error opens]
    refine ⟨⟨?_, ?_⟩, ?_⟩
    · rw [left, conversations_opened]
      exact inStep.others _
    · rw [left, conversations_opened, nobody]
      exact keeps.refuse unaccepted (List.prefix_refl _)
    · rw [left, conversations_opened]
      exact .refused keeps.alone installed takes (asks_greetingLine _) (heard_eq_iff.mp said)
  | ok form =>
    have accepted : Acknowledges peers (conversations state.events).length :=
      ⟨takes, form, heard_eq_iff.mp said⟩
    rw [← reply, said] at opens
    rw [bind_of_ok opens]
    -- the state behind the prologue is in step, so the call goes on as with one that was kept
    refine InStep.talk ⟨?_, ?_⟩ rfl ?_
    · rw [conversations_opened]
      exact inStep.others _
    · rw [conversations_opened]
      exact keeps.accept accepted ((Peer.follows_self _).respond listening)
    · rw [conversations_opened]
      exact .started keeps.alone installed accepted (asks_greetingLine _)

end Starting

theorem InStep.connect {state : State} (inStep : InStep settings.target peers state)
    (kept : state.kept = none) (moment : Moment) :
    Advances settings peers moment (conversations state.events)
      (connected settings (moment.call.request settings.target) (moment.around state)) := by
  cases installed : moment.installed.contains settings.program with
  | false => exact inStep.connect_missing kept installed
  | true =>
    by_cases takes : Takes peers (conversations state.events).length 0
    · exact inStep.connect_answered kept installed takes
    · exact inStep.connect_gone kept installed takes

theorem InStep.connected {state : State} (inStep : InStep settings.target peers state)
    (moment : Moment) :
    Advances settings peers moment (conversations state.events)
      (Interpreter.connected settings (moment.call.request settings.target) (moment.around state)) := by
  cases kept : state.kept with
  | none => exact inStep.connect kept moment
  | some peer =>
    have around : (moment.around state).kept = some peer := kept
    rw [connected_kept around]
    refine InStep.talk ⟨inStep.upcoming, inStep.keeps⟩ around ?_
    have keeps := inStep.keeps
    rw [kept] at keeps
    change Reaches settings peers moment _ (conversations state.events)
    generalize conversations state.events = talks at keeps
    cases keeps with
    | one alone greeted accepted follows => exact .kept accepted

end Invariant

theorem InStep.perform {settings : Settings} {peers : List Peer} {state : State}
    (inStep : InStep settings.target peers state) (moment : Moment) :
    InStep settings.target peers (left (moment.perform settings state)) ∧
      Proceeds settings peers moment (conversations state.events)
        (outcome (moment.perform settings state))
        (conversations (left (moment.perform settings state)).events) := by
  have advances := inStep.connected moment
  rw [Moment.perform, Call.perform_eq, left_settled, outcome_settled]
  exact ⟨advances.inStep, advances.proceeds⟩

def stateAfter (settings : Settings) (peers : List Peer) (past : List Moment) : State :=
  past.foldl (fun state moment => left (moment.perform settings state)) ⟨[], .empty, peers, none, []⟩

theorem inStep_stateAfter (settings : Settings) (peers : List Peer) (past : List Moment) :
    InStep settings.target peers (stateAfter settings peers past) := by
  have run : ∀ state, InStep settings.target peers state →
      InStep settings.target peers
        (past.foldl (fun state moment => left (moment.perform settings state)) state) := by
    induction past with
    | nil => exact fun state inStep => inStep
    | cons moment past ih => exact fun state inStep => ih _ (inStep.perform moment).1
  exact run _ ⟨rfl, .nobody nofun nofun⟩

theorem reply_answer {peers : List Peer} {answers : List (List UInt8)} {turns : List Turn} {number : Nat}
    (script : peers[number]? = some (.start (answers.map .answer ++ turns)))
    (unbroken : ∀ line ∈ answers, Bytes.newline ∉ line) {request : Nat} {line : List UInt8}
    (answer : answers[request]? = some line) :
    reply peers number request = line ++ [Bytes.newline] := by
  have bound := (List.getElem?_eq_some_iff.mp answer).1
  have whole : interpreter peers number = .start (answers.map .answer ++ turns) := by
    rw [interpreter, List.getD_eq_getElem?_getD, script, Option.getD_some]
  rw [reply, whole, Peer.replies_answers unbroken, List.getD_eq_getElem?_getD,
    List.getElem?_append_left (by simpa using bound), List.getElem?_map, answer]
  rfl

/-- After any calls, the conversations with all interpreters are in order. One more call has the result
that the reply with the number of its request gives, and the replies of an interpreter that answers with
one line each are its answers. -/
theorem host_in_step (settings : Settings) (peers : List Peer) (past : List Moment) (moment : Moment) :
    Orderly settings.target peers (conversations (stateAfter settings peers past).events) ∧
    Proceeds settings peers moment
      (conversations (stateAfter settings peers past).events)
      (outcome (moment.perform settings (stateAfter settings peers past)))
      (conversations (stateAfter settings peers (past ++ [moment])).events) ∧
    ∀ (number : Nat) (answers : List (List UInt8)) (turns : List Turn),
      peers[number]? = some (.start (answers.map .answer ++ turns)) →
      (∀ line ∈ answers, Bytes.newline ∉ line) →
      ∀ request line, answers[request]? = some line →
        reply peers number request = line ++ [Bytes.newline] := by
  have inStep := inStep_stateAfter settings peers past
  have next : stateAfter settings peers (past ++ [moment]) =
      left (moment.perform settings (stateAfter settings peers past)) := by
    rw [stateAfter, List.foldl_append]
    rfl
  rw [next]
  refine ⟨inStep.keeps.orderly, (inStep.perform moment).2, ?_⟩
  intro number answers turns script unbroken request line answer
  exact reply_answer script unbroken answer

/-- The first interpreter refuses the prologue, though it would accept the next request. -/
def refusing : List Peer :=
  [.start [.answer (Bytes.ofText "error \"no\""), .answer (Bytes.ofText "ok")],
    .start [.answer (Bytes.ofText "ok"), .answer (Bytes.ofText "ok"), .answer (Bytes.ofText "what")]]

def asking (call : Call) : Moment :=
  ⟨["node"], .empty, call⟩

theorem host_in_step_refusing :
    let settings : Settings := ⟨.javascript, "node"⟩
    let refused := [asking (.run "1")]
    let defined := refused ++ [asking (.evalMacro "m" "f")]
    let prologue := "[\"run\", \"\", \"const print_value = (value) =>\\n" ++
      "  Array.isArray(value) ? `'($\x7bvalue.map(print_value).join(\\\" \\\")\x7d)`\\n" ++
      "  : typeof value === \\\"symbol\\\" ? Symbol.keyFor(value)\\n" ++
      "  : value === null || value === undefined ? \\\"nil\\\"\\n" ++
      "  : JSON.stringify(value);\\n\"]"
    let talks := [[prologue], [prologue, "[\"macro\", \"m\", \"f\"]"]]
    outcome ((asking (.run "1")).perform settings (stateAfter settings refusing [])) =
      .error (.raised "no") ∧
    outcome ((asking (.evalMacro "m" "f")).perform settings (stateAfter settings refusing refused)) =
      .ok (.expander "m") ∧
    conversations (stateAfter settings refusing defined).events = talks ∧
    Orderly .javascript refusing talks ∧
    reply refusing 1 2 = Bytes.ofText "what\n" ∧
    outcome ((asking (.expand "m" [])).perform settings (stateAfter settings refusing defined)) =
      .error (.process "malformed reply `what`") := by
  intro settings refused defined prologue talks
  have spoken : conversations (stateAfter settings refusing defined).events = talks := by decide +kernel
  rcases host_in_step settings refusing defined (asking (.expand "m" [])) with ⟨orderly, -, answers⟩
  rw [spoken] at orderly
  have third := answers 1 [Bytes.ofText "ok", Bytes.ofText "ok", Bytes.ofText "what"] [] rfl
    (by decide) 2 _ rfl
  exact ⟨by decide +kernel, by decide +kernel, spoken, orderly, third, by decide +kernel⟩

end LispCompiler.Interpreter
