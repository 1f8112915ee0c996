import LispCompiler.Proofs.Compiler.Agreement
import LispCompiler.Proofs.Target.Balance

/-!
No text in a form breaks out of the emitted code. Main statement: the fragment of a form, and each
fragment that is handed to the host on the way, is balanced. What is handed over is observed with a
host that keeps a record and is otherwise the same.
-/

namespace LispCompiler

open Nesting Code

def Host.alongside (record : List String → List String) (action : EStateM HostError σ α) :
    EStateM HostError (σ × List String) α := fun (state, handed) =>
  match action state with
  | .ok value state => .ok value (state, record handed)
  | .error error state => .error error (state, record handed)

/-- The host with a record of the fragments that it was handed to make macros of. -/
def Host.recording (host : Host σ μ) : Host (σ × List String) μ where
  evalMacro name fragment := alongside (· ++ [fragment]) (host.evalMacro name fragment)
  expand expander args := alongside id (host.expand expander args)
  run fragment := alongside id (host.run fragment)

def Compiler.recording (compiler : Compiler σ μ) : Compiler (σ × List String) μ :=
  ⟨compiler.target, compiler.host.recording⟩

def Session.recorded (session : Session σ μ) (handed : List String) :
    Session (σ × List String) μ :=
  ⟨(session.host, handed), session.macros⟩

def recordedResult (handed : List String) :
    EStateM.Result ε (Session σ μ) α → EStateM.Result ε (Session (σ × List String) μ) α
  | .ok value session => .ok value (session.recorded handed)
  | .error error session => .error error (session.recorded handed)

inductive RecordsBalanced : σ → σ × List String → Prop
  | record {state : σ} {handed : List String} (balanced : ∀ fragment ∈ handed, Balanced fragment) :
      RecordsBalanced state (state, handed)

theorem Host.agree_alongside {record : List String → List String} (action : EStateM HostError σ α)
    (keeps : ∀ handed : List String, (∀ fragment ∈ handed, Balanced fragment) →
      ∀ fragment ∈ record handed, Balanced fragment) :
    Agree RecordsBalanced Eq action (alongside record action) := by
  rintro state _ ⟨balanced⟩
  have kept := keeps _ balanced
  unfold alongside
  dsimp only
  cases action state with
  | ok value later => exact .ok rfl (.record kept)
  | error error later => exact .error (.record kept)

theorem Compiler.hostsAgree_recording (compiler : Compiler σ μ) :
    HostsAgree (.ofHosts RecordsBalanced) compiler compiler.recording where
  evalMacro name code := by
    have keeps : ∀ handed : List String, (∀ fragment ∈ handed, Balanced fragment) →
        ∀ fragment ∈ handed ++ [code.render compiler.target], Balanced fragment := by
      intro handed balanced
      rw [List.forall_mem_append, List.forall_mem_singleton]
      exact ⟨balanced, balanced_render compiler.target code⟩
    exact Host.agree_alongside (compiler.host.evalMacro name _) keeps
  expand expander args := Host.agree_alongside _ fun _ balanced => balanced

theorem Session.Alike.exists_recorded {session : Session σ μ} {recorded : Session (σ × List String) μ}
    (alike : Alike (.ofHosts RecordsBalanced) session recorded) :
    ∃ handed, recorded = session.recorded handed ∧ ∀ fragment ∈ handed, Balanced fragment := by
  rcases session with ⟨host, macros⟩
  rcases recorded with ⟨_, _⟩
  rcases alike with ⟨⟨balanced⟩, rfl⟩
  exact ⟨_, rfl, balanced⟩

theorem Code.Renders.eq {target : Target} {a b : String} (same : Renders target target a b) :
    a = b := by
  rcases same with ⟨code, rfl, rfl⟩
  rfl

theorem Code.Renders.balanced {first second : Target} {a b : String}
    (same : Renders first second a b) : Balanced a := by
  rcases same with ⟨code, rfl, rfl⟩
  exact balanced_render first code

/-- The fragment of a form is balanced. So is each that a recording host was handed, and recording
changes nothing else. -/
theorem Compiler.compile_balanced (compiler : Compiler σ μ) (session : Session σ μ) (form : Datum) :
    (∀ fragment after, compiler.compile form session = .ok (some fragment) after →
      Balanced fragment) ∧
    ∃ handed, compiler.recording.compile form (session.recorded []) =
        recordedResult handed (compiler.compile form session) ∧
      ∀ fragment ∈ handed, Balanced fragment := by
  have outcome := agree_compile compiler.hostsAgree_recording form session (session.recorded [])
    ⟨.record (by simp), rfl⟩
  generalize compiler.compile form session = plain at outcome ⊢
  generalize compiler.recording.compile form (session.recorded []) = recorded at outcome ⊢
  cases outcome with
  | ok value state =>
    rcases state.exists_recorded with ⟨handed, rfl, balanced⟩
    constructor
    · rintro fragment _ ⟨⟩
      cases value with
      | some same => exact same.balanced
    · refine ⟨handed, ?_, balanced⟩
      cases value with
      | none => rfl
      | some same => rw [same.eq, recordedResult]
  | error state =>
    rcases state.exists_recorded with ⟨handed, rfl, balanced⟩
    exact ⟨nofun, handed, rfl, balanced⟩

def Host.constant (expansion : Datum) : Host Unit Unit where
  evalMacro _ _ := pure ()
  expand _ _ := pure expansion
  run _ := pure ()

/-- `(do (defmacro open (fn () "(")) (open))` -/
def Datum.opening : Datum :=
  .list [.symbol "do",
    .list [.symbol "defmacro", .symbol "open", .list [.symbol "fn", .list [], .string "("]],
    .list [.symbol "open"]]

def handedOver : EStateM.Result ε (Session (σ × List String) μ) α → List String
  | .ok _ session => session.host.2
  | .error _ session => session.host.2

theorem Compiler.compile_balanced_opening :
    Balanced "(\"\\\"(\")" ∧ Balanced "->() \x7b (\"(\") \x7d" := by
  have whole := compile_balanced ⟨.ruby, .constant (.string "\"(")⟩ (.start ()) .opening
  constructor
  · exact whole.1 _ _ rfl
  · rcases whole.2 with ⟨handed, run, balanced⟩
    have record : ["->() \x7b (\"(\") \x7d"] = handed := congrArg handedOver run
    exact balanced _ (record ▸ List.mem_singleton_self _)

end LispCompiler
