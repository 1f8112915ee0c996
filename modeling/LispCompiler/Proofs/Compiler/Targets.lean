import LispCompiler.Proofs.Compiler.Sessions

namespace LispCompiler

section Hosts

structure Host.IgnoresText (alike : σ → σ → Prop) (host : Host σ μ) : Prop where
  evalMacro (name fragment other : String) :
    Agree alike Eq (host.evalMacro name fragment) (host.evalMacro name other)
  expand (expander : μ) (args : List Datum) :
    Agree alike Eq (host.expand expander args) (host.expand expander args)
  run (fragment other : String) : Agree alike Eq (host.run fragment) (host.run other)

theorem Host.counting_ignoresText (define : String → Nat → Except HostError μ)
    (expand : μ → List Datum → Nat → Except HostError Datum) (run : Nat → Except HostError Unit) :
    (counting define expand run).IgnoresText Eq where
  evalMacro _ _ _ := .refl _
  expand _ _ := .refl _
  run _ _ := .refl _

def HostEvent.withoutText : HostEvent μ → HostEvent μ
  | defined name _ answer => defined name "" answer
  | expanded expander args answer => expanded expander args answer
  | ran _ answer => ran "" answer

def SameCalls (alike : σ → σ → Prop) (first second : σ × List (HostEvent μ)) : Prop :=
  alike first.1 second.1 ∧ first.2.map HostEvent.withoutText = second.2.map HostEvent.withoutText

theorem agree_sameCalls {alike : σ → σ → Prop} {action other : EStateM HostError σ α}
    (answers : Agree alike Eq action other) {event event' : Except HostError α → HostEvent μ}
    (same : ∀ answer, (event answer).withoutText = (event' answer).withoutText) :
    Agree (SameCalls alike) Eq (Host.transcribe event action) (Host.transcribe event' other) := by
  intro first second related
  have outcome := answers _ _ related.1
  unfold Host.transcribe
  dsimp only
  generalize action first.1 = left, other second.1 = right at outcome
  cases outcome with
  | ok value state =>
    subst value
    exact .ok rfl ⟨state, by simp [outcome, related.2, same]⟩
  | error state => exact .error ⟨state, by simp [outcome, related.2, same]⟩

theorem Compiler.sessionsAgree_ignoresText {host : Host σ μ} {alike : σ → σ → Prop}
    (ignores : host.IgnoresText alike) (first second : Target) :
    SessionsAgree (.ofHosts (SameCalls alike)) (mk first host).transcribed (mk second host).transcribed where
  evalMacro name _ := agree_sameCalls (ignores.evalMacro name _ _) fun _ => rfl
  expand expander args := agree_sameCalls (ignores.expand expander args) fun _ => rfl
  run _ := agree_sameCalls (ignores.run _ _) fun _ => rfl
  runText _ := agree_sameCalls (ignores.run _ _) fun _ => rfl

end Hosts

section Kinds

/-- The kind of a reply: with all texts taken out, but their number left. -/
def Reply.withoutText : Reply → Reply
  | compiled result => compiled (result.map (Option.map fun _ => ""))
  | loaded result => loaded (result.map (List.map fun _ => ""))
  | emitted result sink => emitted result { sink with bytes := [] }
  | ran result => ran result

structure Sink.Open (first second : Sink) : Prop where
  left : first.room = none
  right : second.room = none
  refusal : first.refusal = second.refusal

theorem Sink.agree_write (text other : String) : Agree Sink.Open Eq (write text) (write other) := by
  intro s t opened
  simp only [write, opened.left, opened.right]
  exact .ok rfl ⟨rfl, rfl, opened.refusal⟩

def View.kinds (first second : Target) : View first second where
  text _ := ""
  sink sink := { sink with bytes := [] }
  sinks := Sink.Open
  text_render _ := rfl
  sink_eq {s t} opened := by
    rw [opened.left, opened.right, opened.refusal]
  write_render _ := Sink.agree_write _ _

theorem View.kinds_reply (first second : Target) : (kinds first second).reply = Reply.withoutText := by
  funext reply
  cases reply <;> rfl

end Kinds

namespace Compiler

/-- With a host that ignores the text of fragments, sessions in Ruby and in JavaScript reply with the
same kinds of results and the same errors, one after the other. Their hosts get the same calls in the
same order, up to the text of fragments, and they end with the same macros. -/
theorem serve_targets {host : Host σ μ} {alike : σ → σ → Prop} (ignores : host.IgnoresText alike)
    {s t : σ} (start : alike s t) (macros : MacroTable μ) {requests : List Request}
    (unlimited : ∀ forms sink, .emit forms sink ∈ requests → sink.room = none) :
    let ruby : Compiler σ μ := ⟨.ruby, host⟩
    let javascript : Compiler σ μ := ⟨.javascript, host⟩
    (ruby.serve requests ⟨s, macros⟩).1.map Reply.withoutText =
        (javascript.serve requests ⟨t, macros⟩).1.map Reply.withoutText ∧
      (ruby.transcript requests ⟨s, macros⟩).map HostEvent.withoutText =
        (javascript.transcript requests ⟨t, macros⟩).map HostEvent.withoutText ∧
      (ruby.serve requests ⟨s, macros⟩).2.macros = (javascript.serve requests ⟨t, macros⟩).2.macros := by
  intro ruby javascript
  let view : View ruby.transcribed.target javascript.transcribed.target := .kinds .ruby .javascript
  have admits : ∀ request ∈ requests, view.Admits request := by
    intro request member forms sink same
    subst same
    have room := unlimited forms sink member
    exact ⟨room, room, rfl⟩
  have begun : Session.Alike (.ofHosts (SameCalls alike))
      (Session.annotated ([] : List (HostEvent μ)) ⟨s, macros⟩) (Session.annotated [] ⟨t, macros⟩) :=
    ⟨⟨start, rfl⟩, rfl⟩
  have agree := agree_serve view (sessionsAgree_ignoresText ignores .ruby .javascript) admits begun
  have kinds : view.reply = Reply.withoutText := View.kinds_reply .ruby .javascript
  rw [kinds, ruby.transcribed_serve, javascript.transcribed_serve] at agree
  exact ⟨agree.1, agree.2.host.2, agree.2.macros⟩

def failingThird : Host Nat String :=
  .counting (fun name calls => if calls = 2 then .error (.raised name) else .ok name)
    (fun expander _ calls => if calls = 2 then .error .detached else .ok (.symbol expander))
    fun calls => if calls = 2 then .error .detached else .ok ()

theorem serve_targets_failingThird :
    let requests : List Request :=
      [.compile (.list [.symbol "defmacro", .symbol "m", .list [.symbol "fn", .list [], .nil]]),
        .compile (.list [.symbol "m"]),
        .compile (.list [.symbol "do", .list [.symbol "defmacro", .symbol "n", .nil], .symbol "x"]),
        .emit [.list [.symbol "m", .nil]] .unlimited, .run "x"]
    failingThird.IgnoresText Eq ∧
      ((mk .javascript failingThird).serve requests (.start 0)).1.map Reply.withoutText =
        [.compiled (.ok none), .compiled (.ok (some "")),
          .compiled (.error (.macroDefinition "n" (.raised "n"))), .emitted (.ok ()) .unlimited,
          .ran (.ok ())] ∧
      ((mk .javascript failingThird).transcript requests (.start 0)).map HostEvent.withoutText =
        [.defined "m" "" (.ok "m"), .expanded "m" [] (.ok (.symbol "m")),
          .defined "n" "" (.error (.raised "n")), .expanded "m" [.nil] (.ok (.symbol "m")),
          .ran "" (.ok ())] := by
  intro requests
  have ignores : failingThird.IgnoresText Eq := Host.counting_ignoresText _ _ _
  have unlimited : ∀ forms sink, Request.emit forms sink ∈ requests → sink.room = none := by
    intro forms sink member
    simp only [requests, List.mem_cons, List.not_mem_nil, reduceCtorEq, or_false, false_or,
      Request.emit.injEq] at member
    rw [member.2]
    rfl
  have same := serve_targets ignores (rfl : 0 = 0) .empty unlimited
  exact ⟨ignores, same.1.symm, same.2.1.symm⟩

end Compiler

end LispCompiler
