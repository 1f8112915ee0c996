import LispCompiler.Compiler.Generate
import LispCompiler.Proofs.Compiler.Balance
import LispCompiler.Proofs.Compiler.Lockstep
import LispCompiler.Proofs.Outcomes

namespace LispCompiler

section Requests

inductive Request where
  | compile (form : Datum)
  | load (source : String)
  | emit (forms : List Datum) (sink : Sink)
  | run (fragment : String)

def Request.forms : Request → List Datum
  | compile form => [form]
  | load source => (Datum.readAll source).toOption.getD []
  | emit forms _ => forms
  | run _ => []

inductive Reply where
  | compiled (result : Except CompileError (Option String))
  | loaded (result : Except CompileError (List String))
  | emitted (result : Except GenerateError Unit) (sink : Sink)
  | ran (result : Except CompileError Unit)

namespace Compiler

variable (compiler : Compiler σ μ)

def reply (session : Session σ μ) : Request → Reply × Session σ μ
  | .compile form =>
    let result := compiler.compile form session
    (.compiled (outcome result), left result)
  | .load source =>
    let result := compiler.load source session
    (.loaded (outcome result), left result)
  | .emit forms sink =>
    let result := compiler.emit forms ⟨session, sink⟩
    (.emitted (outcome result) (left result).sink, (left result).toSession)
  | .run fragment =>
    let result := compiler.run fragment session
    (.ran (outcome result), left result)

def serve : List Request → Session σ μ → List Reply × Session σ μ
  | [], session => ([], session)
  | request :: requests, session =>
    let (first, session) := compiler.reply session request
    let (others, session) := serve requests session
    (first :: others, session)

end Compiler

end Requests

section Outcomes

variable {states : σ → τ → Prop} {values : α → β → Prop} {first : EStateM.Result ε σ α}
  {second : EStateM.Result ε τ β}

theorem SameOutcome.left (same : SameOutcome states values first second) :
    states (left first) (left second) := by
  cases same with
  | ok value state => exact state
  | error state => exact state

theorem SameOutcome.map_outcome (same : SameOutcome states values first second) {f : α → γ} {g : β → γ}
    (alike : ∀ a b, values a b → f a = g b) : (outcome first).map f = (outcome second).map g := by
  cases same with
  | ok value state => exact congrArg Except.ok (alike _ _ value)
  | error state => rfl

theorem SameOutcome.outcome_eq {second : EStateM.Result ε τ α} (same : SameOutcome states Eq first second) :
    outcome first = outcome second := by
  cases same with
  | ok value state => exact congrArg Except.ok value
  | error state => rfl

end Outcomes

structure Emission.Alike (pairing : Pairing σ τ μ) (sinks : Sink → Sink → Prop) (first : Emission σ μ)
    (second : Emission τ μ) : Prop extends Session.Alike pairing first.toSession second.toSession where
  sink : sinks first.sink second.sink

/-- What is compared of the replies of two targets: a view of texts in which renderings of the same
code look the same, and a view of sinks that such renderings are written to. -/
structure View (first second : Target) where
  text : String → String
  sink : Sink → Sink
  sinks : Sink → Sink → Prop
  text_render (code : Code) : text (code.render first) = text (code.render second)
  sink_eq {s t : Sink} (related : sinks s t) : sink s = sink t
  write_render (code : Code) :
    Agree sinks Eq (Sink.write (code.render first ++ "\n")) (Sink.write (code.render second ++ "\n"))

namespace View

def whole (target : Target) : View target target where
  text := id
  sink := id
  sinks := Eq
  text_render _ := rfl
  sink_eq := id
  write_render _ := .refl _

variable {first second : Target} (view : View first second)

def reply : Reply → Reply
  | .compiled result => .compiled (result.map (Option.map view.text))
  | .loaded result => .loaded (result.map (List.map view.text))
  | .emitted result sink => .emitted result (view.sink sink)
  | .ran result => .ran result

theorem whole_reply (target : Target) (reply : Reply) : (whole target).reply reply = reply := by
  cases reply with
  | compiled result =>
    cases result with
    | ok code => simp [View.reply, whole, Except.map]
    | error error => rfl
  | loaded result =>
    cases result with
    | ok fragments => simp [View.reply, whole, Except.map]
    | error error => rfl
  | emitted result sink => rfl
  | ran result => rfl

theorem map_text {a b : Option String} (same : Option.Rel (Code.Renders first second) a b) :
    a.map view.text = b.map view.text := by
  cases same with
  | none => rfl
  | some same =>
    rcases same with ⟨code, rfl, rfl⟩
    exact congrArg some (view.text_render code)

theorem map_texts {as bs : List String} (same : Code.RendersAll first second as bs) :
    as.map view.text = bs.map view.text := by
  rcases same with ⟨codes, rfl, rfl⟩
  induction codes with
  | nil => rfl
  | cons code codes ih => simp only [Code.renderAll, List.map_cons, view.text_render code, ih]

def Admits (request : Request) : Prop :=
  ∀ forms sink, request = .emit forms sink → view.sinks sink sink

end View

namespace Compiler

open Code

structure SessionsAgree (pairing : Pairing σ τ μ) (first : Compiler σ μ) (second : Compiler τ μ) : Prop
    extends HostsAgree pairing first second where
  run (code : Code) : Agree pairing.hosts Eq (first.host.run (code.render first.target))
    (second.host.run (code.render second.target))
  runText (fragment : String) : Agree pairing.hosts Eq (first.host.run fragment) (second.host.run fragment)

section Serving

variable {pairing : Pairing σ τ μ} {first : Compiler σ μ} {second : Compiler τ μ}
  {sinks : Sink → Sink → Prop}

theorem agree_run {fragment other : String}
    (hosts : Agree pairing.hosts Eq (first.host.run fragment) (second.host.run other)) :
    Agree (Session.Alike pairing) Eq (first.run fragment) (second.run other) := by
  intro s t alike
  unfold run
  have outcome := hosts _ _ alike.host
  generalize first.host.run fragment s.host = left, second.host.run other t.host = right at outcome
  cases outcome with
  | ok value state => exact .ok rfl { alike with host := state }
  | error state => exact .error { alike with host := state }

theorem agree_loadForms (agree : SessionsAgree pairing first second) (forms : List Datum) :
    Agree (Session.Alike pairing) (RendersAll first.target second.target) (first.loadForms forms)
      (second.loadForms forms) := by
  induction forms with
  | nil => exact .ofPure ⟨[], rfl, rfl⟩
  | cons form forms ih =>
    apply (agree_compile agree.toHostsAgree form).bind
    intro a b same
    cases same with
    | none => exact ih
    | some same =>
      rcases same with ⟨code, rfl, rfl⟩
      apply (agree_run (agree.run code)).bind
      intro _ _ _
      apply ih.bind
      intro left right same
      rcases same with ⟨codes, rfl, rfl⟩
      exact .ofPure ⟨code :: codes, rfl, rfl⟩

theorem agree_load (agree : SessionsAgree pairing first second) (source : String) :
    Agree (Session.Alike pairing) (RendersAll first.target second.target) (first.load source)
      (second.load source) := by
  unfold load
  split
  · exact agree_loadForms agree _
  · exact .ofThrow _

theorem agree_compileNext (agree : HostsAgree pairing first second) (form : Datum) :
    Agree (Emission.Alike pairing sinks) (Option.Rel (Renders first.target second.target))
      (first.compileNext form) (second.compileNext form) := by
  intro s t alike
  unfold compileNext
  have outcome := agree_compile agree form _ _ alike.toAlike
  generalize first.compile form s.toSession = left, second.compile form t.toSession = right at outcome
  cases outcome with
  | ok value state => exact .ok value ⟨state, alike.sink⟩
  | error state => exact .error ⟨state, alike.sink⟩

theorem agree_writeOut {text other : String} (writes : Agree sinks Eq (Sink.write text) (Sink.write other)) :
    Agree (Emission.Alike pairing sinks) Eq (writeOut text) (writeOut other) := by
  intro s t alike
  unfold writeOut
  have outcome := writes _ _ alike.sink
  generalize Sink.write text s.sink = left, Sink.write other t.sink = right at outcome
  cases outcome with
  | ok value state => exact .ok rfl ⟨alike.toAlike, state⟩
  | error state => exact .error ⟨alike.toAlike, state⟩

theorem agree_emit (agree : HostsAgree pairing first second) (view : View first.target second.target)
    (forms : List Datum) :
    Agree (Emission.Alike pairing view.sinks) Eq (first.emit forms) (second.emit forms) := by
  induction forms with
  | nil => exact .ofPure rfl
  | cons form forms ih =>
    apply (agree_compileNext agree form).bind
    intro a b same
    cases same with
    | none => exact ih
    | some same =>
      rcases same with ⟨code, rfl, rfl⟩
      apply (agree_writeOut (view.write_render code)).bind
      intro _ _ _
      exact ih

variable (view : View first.target second.target) {s : Session σ μ} {t : Session τ μ}

theorem agree_reply (agree : SessionsAgree pairing first second) {request : Request}
    (admits : view.Admits request) (alike : Session.Alike pairing s t) :
    view.reply (first.reply s request).1 = view.reply (second.reply t request).1 ∧
      Session.Alike pairing (first.reply s request).2 (second.reply t request).2 := by
  cases request with
  | compile form =>
    have same := agree_compile agree.toHostsAgree form s t alike
    exact ⟨congrArg Reply.compiled (same.map_outcome fun _ _ => view.map_text), same.left⟩
  | load source =>
    have same := agree_load agree source s t alike
    exact ⟨congrArg Reply.loaded (same.map_outcome fun _ _ => view.map_texts), same.left⟩
  | emit forms sink =>
    have same := agree_emit agree.toHostsAgree view forms ⟨s, sink⟩ ⟨t, sink⟩ ⟨alike, admits forms sink rfl⟩
    exact ⟨congrArg₂ Reply.emitted same.outcome_eq (view.sink_eq same.left.sink), same.left.toAlike⟩
  | run fragment =>
    have same := agree_run (agree.runText fragment) s t alike
    exact ⟨congrArg Reply.ran same.outcome_eq, same.left⟩

theorem agree_serve (agree : SessionsAgree pairing first second) {requests : List Request}
    (admits : ∀ request ∈ requests, view.Admits request) (alike : Session.Alike pairing s t) :
    (first.serve requests s).1.map view.reply = (second.serve requests t).1.map view.reply ∧
      Session.Alike pairing (first.serve requests s).2 (second.serve requests t).2 := by
  induction requests generalizing s t with
  | nil => exact ⟨rfl, alike⟩
  | cons request requests ih =>
    rw [List.forall_mem_cons] at admits
    rcases agree_reply view agree admits.1 alike with ⟨reply, middle⟩
    rcases ih admits.2 middle with ⟨replies, last⟩
    exact ⟨congrArg₂ List.cons reply replies, last⟩

end Serving

end Compiler

section Transcripts

inductive HostEvent (μ : Type) where
  | defined (name fragment : String) (answer : Except HostError μ)
  | expanded (expander : μ) (args : List Datum) (answer : Except HostError Datum)
  | ran (fragment : String) (answer : Except HostError Unit)

def Host.transcribe (event : Except HostError α → HostEvent μ) (action : EStateM HostError σ α) :
    EStateM HostError (σ × List (HostEvent μ)) α := fun (state, events) =>
  let result := action state
  settled (outcome result) (left result, events ++ [event (outcome result)])

def Host.transcribed (host : Host σ μ) : Host (σ × List (HostEvent μ)) μ where
  evalMacro name fragment := transcribe (.defined name fragment) (host.evalMacro name fragment)
  expand expander args := transcribe (.expanded expander args) (host.expand expander args)
  run fragment := transcribe (.ran fragment) (host.run fragment)

namespace Compiler

def transcribed (compiler : Compiler σ μ) : Compiler (σ × List (HostEvent μ)) μ :=
  ⟨compiler.target, compiler.host.transcribed⟩

variable (compiler : Compiler σ μ)

def transcript (requests : List Request) (session : Session σ μ) : List (HostEvent μ) :=
  (compiler.transcribed.serve requests (session.annotated [])).2.host.2

theorem agree_transcribe (event : Except HostError α → HostEvent μ) (action : EStateM HostError σ α) :
    Agree (fun plain transcribed => transcribed.1 = plain) Eq action (Host.transcribe event action) := by
  intro plain transcribed same
  subst same
  unfold Host.transcribe
  dsimp only
  cases action transcribed.1 with
  | ok value after => exact .ok rfl rfl
  | error error after => exact .error rfl

theorem sessionsAgree_transcribed : SessionsAgree (.ofHosts fun plain transcribed => transcribed.1 = plain)
    compiler compiler.transcribed where
  evalMacro _ _ := agree_transcribe _ _
  expand _ _ := agree_transcribe _ _
  run _ := agree_transcribe _ _
  runText _ := agree_transcribe _ _

/-- Writing the calls of the host down changes nothing else. -/
theorem transcribed_serve (requests : List Request) (session : Session σ μ) :
    compiler.transcribed.serve requests (session.annotated []) =
      ((compiler.serve requests session).1,
        (compiler.serve requests session).2.annotated (compiler.transcript requests session)) := by
  let view : View compiler.target compiler.transcribed.target := .whole compiler.target
  have admits : ∀ request ∈ requests, view.Admits request := fun _ _ _ _ _ => rfl
  rcases agree_serve view compiler.sessionsAgree_transcribed admits
    (⟨rfl, rfl⟩ : Session.Alike _ session (session.annotated [])) with ⟨replies, ⟨host, macros⟩⟩
  have every : view.reply = id := funext (View.whole_reply compiler.target)
  rw [every, List.map_id, List.map_id] at replies
  unfold transcript Session.annotated
  rw [← host, replies, macros]
  rfl

end Compiler

end Transcripts

section Counting

def Host.count (answer : Nat → Except HostError α) : EStateM HostError Nat α := fun calls =>
  settled (answer calls) (calls + 1)

/-- A host that sees the names and arguments of its calls, but no fragments, and counts the calls. -/
def Host.counting (define : (name : String) → Nat → Except HostError μ)
    (expand : (expander : μ) → (args : List Datum) → Nat → Except HostError Datum)
    (run : Nat → Except HostError Unit) : Host Nat μ where
  evalMacro name _ := count (define name)
  expand expander args := count (expand expander args)
  run _ := count run

end Counting

end LispCompiler
