import Mathlib
import LispCompiler.Proofs.Compiler.Sessions
import LispCompiler.Proofs.Datum.Concatenation

namespace LispCompiler

def HostEvent.run? : HostEvent μ → Option (String × Except HostError Unit)
  | ran fragment answer => some (fragment, answer)
  | _ => none

section Transcripts

def calls (x : Run (σ × List (HostEvent μ)) μ α) (session : Session σ μ) : List (HostEvent μ) :=
  (left (x (session.annotated []))).host.2

def Transcribes (x : Run σ μ α) (y : Run (σ × List (HostEvent μ)) μ α) : Prop :=
  ∀ session earlier, y (session.annotated earlier) =
    annotatedResult (earlier ++ calls y session) (x session)

variable {x : Run σ μ α} {y : Run (σ × List (HostEvent μ)) μ α} {f : α → Run σ μ β}
  {g : α → Run (σ × List (HostEvent μ)) μ β} {session middle : Session σ μ} {value : α}

theorem calls_pure (value : α) (session : Session σ μ) :
    calls (pure value : Run (σ × List (HostEvent μ)) μ α) session = [] :=
  rfl

theorem calls_bind_error {error : CompileError} (first : Transcribes x y)
    (failed : x session = .error error middle) : calls (y >>= g) session = calls y session := by
  have noted : y (session.annotated []) = _ := first session []
  rw [failed] at noted
  rw [calls, bind_of_error noted]
  rfl

theorem calls_bind_ok {z : Run σ μ β} (first : Transcribes x y) (next : Transcribes z (g value))
    (done : x session = .ok value middle) :
    calls (y >>= g) session = calls y session ++ calls (g value) middle := by
  have noted : y (session.annotated []) = _ := first session []
  rw [done] at noted
  rw [calls, bind_of_ok noted, next]
  cases z middle with
  | ok result last => rfl
  | error error last => rfl

theorem Transcribes.ofPure (value : α) : Transcribes (pure value : Run σ μ α) (pure value) := by
  intro session earlier
  rw [calls_pure, List.append_nil]
  rfl

theorem calls_map (first : Transcribes x y) (h : α → β) :
    calls (y >>= fun value => pure (h value)) session = calls y session := by
  cases done : x session with
  | error error middle => exact calls_bind_error first done
  | ok value middle =>
    rw [calls_bind_ok first (.ofPure (h value)) done, calls_pure, List.append_nil]

namespace Transcribes

theorem bind (first : Transcribes x y) (next : ∀ value, Transcribes (f value) (g value)) :
    Transcribes (x >>= f) (y >>= g) := by
  intro session earlier
  have noted := first session earlier
  cases done : x session with
  | error error middle =>
    rw [done] at noted
    rw [calls_bind_error first done, bind_of_error done, bind_of_error noted]
    rfl
  | ok value middle =>
    rw [done] at noted
    rw [calls_bind_ok first (next value) done, bind_of_ok done, bind_of_ok noted, next,
      List.append_assoc]

def Behind (earlier : List (HostEvent μ)) (first second : σ × List (HostEvent μ)) : Prop :=
  second = (first.1, earlier ++ first.2)

theorem eq_annotated {earlier : List (HostEvent μ)} {plain : Session σ μ}
    {first second : Session (σ × List (HostEvent μ)) μ}
    (transcribed : Session.Alike (.ofHosts fun plain transcribed => transcribed.1 = plain) plain first)
    (behind : Session.Alike (.ofHosts (Behind earlier)) first second) :
    second = plain.annotated (earlier ++ first.host.2) := by
  have host : second.host = (plain.host, earlier ++ first.host.2) := by
    rw [← show first.host.1 = plain.host from transcribed.host]
    exact behind.host
  have macros : plain.macros = second.macros := transcribed.macros.trans behind.macros
  cases second
  rw [Session.annotated, macros, ← host]

theorem ofAgree {values : α → α → Prop} (equal : ∀ {a b}, values a b → a = b)
    (plain : Agree (Session.Alike (.ofHosts fun plain transcribed => transcribed.1 = plain)) values x y)
    (behind : ∀ earlier, Agree (Session.Alike (.ofHosts (Behind earlier))) values y y) :
    Transcribes x y := by
  intro session earlier
  -- the run with an empty transcript stands between the other two
  have same := plain session (session.annotated []) ⟨rfl, rfl⟩
  have later := behind earlier (session.annotated []) (session.annotated earlier)
    ⟨by simp [Pairing.ofHosts, Behind, Session.annotated], rfl⟩
  unfold calls
  generalize x session = first at same ⊢
  generalize y (session.annotated []) = second at same later ⊢
  generalize y (session.annotated earlier) = third at later ⊢
  cases same with
  | ok value state =>
    cases later with
    | ok value' state' =>
      rw [← equal value', ← equal value, eq_annotated state state']
      rfl
  | error state =>
    cases later with
    | error state' =>
      rw [eq_annotated state state']
      rfl

end Transcribes

end Transcripts

namespace Compiler

variable (compiler : Compiler σ μ)

theorem agree_behind (earlier : List (HostEvent μ)) (event : Except HostError α → HostEvent μ)
    (action : EStateM HostError σ α) : Agree (Transcribes.Behind earlier) Eq
      (Host.transcribe event action) (Host.transcribe event action) := by
  intro first second behind
  rw [behind]
  simp only [Host.transcribe, List.append_assoc]
  cases action first.1 with
  | ok value state => exact .ok rfl rfl
  | error error state => exact .error rfl

theorem sessionsAgree_behind (earlier : List (HostEvent μ)) :
    SessionsAgree (.ofHosts (Transcribes.Behind earlier)) compiler.transcribed compiler.transcribed where
  evalMacro _ _ := agree_behind _ _ _
  expand _ _ := agree_behind _ _ _
  run _ := agree_behind _ _ _
  runText _ := agree_behind _ _ _

theorem transcribes_compile (form : Datum) :
    Transcribes (compiler.compile form) (compiler.transcribed.compile form) := by
  have equal : ∀ {a b}, Option.Rel (Code.Renders compiler.target compiler.target) a b → a = b := by
    intro a b same
    cases same with
    | none => rfl
    | some same => rw [same.eq]
  exact .ofAgree equal (agree_compile compiler.sessionsAgree_transcribed.toHostsAgree form)
    fun earlier => agree_compile (compiler.sessionsAgree_behind earlier).toHostsAgree form

theorem transcribes_run (fragment : String) :
    Transcribes (compiler.run fragment) (compiler.transcribed.run fragment) :=
  .ofAgree id (agree_run (compiler.sessionsAgree_transcribed.runText fragment))
    fun earlier => agree_run ((compiler.sessionsAgree_behind earlier).runText fragment)

theorem transcribes_runFirst (fragment : String) {x : Run σ μ (List String)}
    {y : Run (σ × List (HostEvent μ)) μ (List String)} (rest : Transcribes x y) :
    Transcribes (do compiler.run fragment; return fragment :: (← x))
      (do compiler.transcribed.run fragment; return fragment :: (← y)) :=
  (compiler.transcribes_run fragment).bind fun _ => rest.bind fun _ => .ofPure _

theorem transcribes_loadForms (forms : List Datum) :
    Transcribes (compiler.loadForms forms) (compiler.transcribed.loadForms forms) := by
  induction forms with
  | nil => exact .ofPure _
  | cons form forms ih =>
    refine (compiler.transcribes_compile form).bind fun code => ?_
    cases code with
    | none => exact ih
    | some fragment => exact compiler.transcribes_runFirst fragment ih

/-- Forms are compiled one after the other, and the fragment of each is run before the next one is
compiled. The first failure ends it. The calls of the host are those that each step takes by itself. -/
inductive Loads : List Datum → Session σ μ → List (HostEvent μ) → Except CompileError (List String) →
    Session σ μ → Prop
  | done {session : Session σ μ} : Loads [] session [] (.ok []) session
  | refused {form : Datum} {forms : List Datum} {session after : Session σ μ} {error : CompileError}
      (compiles : compiler.compile form session = .error error after) :
      Loads (form :: forms) session (compiler.transcript [.compile form] session) (.error error) after
  | silent {form : Datum} {forms : List Datum} {session middle after : Session σ μ}
      {events : List (HostEvent μ)} {result : Except CompileError (List String)}
      (compiles : compiler.compile form session = .ok none middle)
      (others : Loads forms middle events result after) :
      Loads (form :: forms) session (compiler.transcript [.compile form] session ++ events) result after
  | failed {form : Datum} {forms : List Datum} {session middle after : Session σ μ} {fragment : String}
      {error : CompileError} (compiles : compiler.compile form session = .ok (some fragment) middle)
      (runs : compiler.run fragment middle = .error error after) :
      Loads (form :: forms) session
        (compiler.transcript [.compile form] session ++ compiler.transcript [.run fragment] middle)
        (.error error) after
  | ran {form : Datum} {forms : List Datum} {session middle later after : Session σ μ}
      {fragment : String} {events : List (HostEvent μ)} {result : Except CompileError (List String)}
      (compiles : compiler.compile form session = .ok (some fragment) middle)
      (runs : compiler.run fragment middle = .ok () later)
      (others : Loads forms later events result after) :
      Loads (form :: forms) session
        (compiler.transcript [.compile form] session ++
          (compiler.transcript [.run fragment] middle ++ events))
        (result.map (fragment :: ·)) after

variable {compiler} {forms : List Datum} {session after : Session σ μ} {events : List (HostEvent μ)}
  {result : Except CompileError (List String)}

theorem exists_loads (forms : List Datum) (session : Session σ μ) :
    ∃ events result after, compiler.Loads forms session events result after := by
  induction forms generalizing session with
  | nil => exact ⟨_, _, _, .done⟩
  | cons form forms ih =>
    cases compiles : compiler.compile form session with
    | error error after => exact ⟨_, _, _, .refused compiles⟩
    | ok code middle =>
      cases code with
      | none =>
        rcases ih middle with ⟨events, result, after, others⟩
        exact ⟨_, _, _, .silent compiles others⟩
      | some fragment =>
        cases runs : compiler.run fragment middle with
        | error error after => exact ⟨_, _, _, .failed compiles runs⟩
        | ok nothing later =>
          rcases ih later with ⟨events, result, after, others⟩
          exact ⟨_, _, _, .ran compiles runs others⟩

theorem Loads.loadForms_eq (loads : compiler.Loads forms session events result after) :
    compiler.loadForms forms session = settled result after := by
  induction loads with
  | done => rfl
  | refused compiles => exact bind_of_error compiles
  | silent compiles _ ih => exact (bind_of_ok compiles).trans ih
  | failed compiles runs => exact (bind_of_ok compiles).trans (bind_of_error runs)
  | @ran _ _ _ _ _ _ _ _ result compiles runs _ ih =>
    refine (bind_of_ok compiles).trans ((bind_of_ok runs).trans ?_)
    cases result with
    | ok fragments => exact bind_of_ok ih
    | error error => exact bind_of_error ih

theorem Loads.calls_eq (loads : compiler.Loads forms session events result after) :
    calls (compiler.transcribed.loadForms forms) session = events := by
  induction loads with
  | done => rfl
  | refused compiles => exact calls_bind_error (compiler.transcribes_compile _) compiles
  | silent compiles others ih =>
    rw [← ih]
    exact calls_bind_ok (compiler.transcribes_compile _) (compiler.transcribes_loadForms _) compiles
  | @failed form forms _ middle _ fragment _ compiles runs =>
    have behind := compiler.transcribes_runFirst fragment (compiler.transcribes_loadForms forms)
    refine (calls_bind_ok (compiler.transcribes_compile form) behind compiles).trans ?_
    exact congrArg _ (calls_bind_error (compiler.transcribes_run fragment) runs)
  | @ran form forms _ middle later _ fragment events _ compiles runs _ ih =>
    have rest := compiler.transcribes_loadForms forms
    refine (calls_bind_ok (compiler.transcribes_compile form)
      (compiler.transcribes_runFirst fragment rest) compiles).trans (congrArg _ ?_)
    refine (calls_bind_ok (compiler.transcribes_run fragment) (rest.bind fun _ => .ofPure _)
      runs).trans (congrArg _ ?_)
    exact (calls_map rest _).trans ih

theorem loads_iff : compiler.Loads forms session events result after ↔
    calls (compiler.transcribed.loadForms forms) session = events ∧
      compiler.loadForms forms session = settled result after := by
  constructor
  · intro loads
    exact ⟨loads.calls_eq, loads.loadForms_eq⟩
  · intro held
    rcases held with ⟨same, done⟩
    rcases compiler.exists_loads forms session with ⟨events', result', after', loads⟩
    have both : settled result' after' = settled result after := loads.loadForms_eq.symm.trans done
    have results := congrArg outcome both
    have states := congrArg left both
    rw [outcome_settled, outcome_settled] at results
    rw [left_settled, left_settled] at states
    rw [← same, ← results, ← states, loads.calls_eq]
    exact loads

section Fragments

def Quiet (first second : σ × List (HostEvent μ)) : Prop :=
  first = second ∧ first.2.filterMap HostEvent.run? = []

theorem agree_quiet {event : Except HostError α → HostEvent μ} (other : ∀ answer, (event answer).run? = none)
    (action : EStateM HostError σ α) :
    Agree Quiet Eq (Host.transcribe event action) (Host.transcribe event action) := by
  intro first second quiet
  rcases quiet with ⟨rfl, none⟩
  have still : ∀ answer (state : σ), Quiet (state, first.2 ++ [event answer]) (state, first.2 ++ [event answer]) := by
    intro answer state
    refine ⟨rfl, ?_⟩
    simp [none, other]
  simp only [Host.transcribe]
  cases action first.1 with
  | ok value state => exact .ok rfl (still _ _)
  | error error state => exact .error (still _ _)

theorem hostsAgree_quiet (compiler : Compiler σ μ) :
    HostsAgree (.ofHosts Quiet) compiler.transcribed compiler.transcribed where
  evalMacro _ _ := agree_quiet (fun _ => rfl) _
  expand _ _ := agree_quiet (fun _ => rfl) _

/-- Compiling runs no fragments. -/
theorem runs_compile (form : Datum) (session : Session σ μ) :
    (compiler.transcript [.compile form] session).filterMap HostEvent.run? = [] := by
  have agree := agree_compile compiler.hostsAgree_quiet form (session.annotated []) (session.annotated [])
    ⟨⟨rfl, rfl⟩, rfl⟩
  exact agree.left.host.2

theorem transcript_run {fragment : String} (runs : compiler.run fragment session = .ok () after) :
    compiler.transcript [.run fragment] session = [.ran fragment (.ok ())] := by
  change (left (compiler.transcribed.run fragment (session.annotated []))).host.2 = _
  simp only [run] at runs
  simp only [run, transcribed, Host.transcribed, Host.transcribe, Session.annotated]
  cases answered : compiler.host.run fragment session.host with
  | ok value host => rfl
  | error error host =>
    rw [answered] at runs
    cases runs

/-- Where all goes well, the fragments are those that were run. -/
theorem Loads.runs (loads : compiler.Loads forms session events result after) {fragments : List String}
    (succeeds : result = .ok fragments) :
    events.filterMap HostEvent.run? = fragments.map (·, .ok ()) := by
  induction loads generalizing fragments with
  | done =>
    cases succeeds
    rfl
  | refused | failed => cases succeeds
  | silent _ _ ih => rw [List.filterMap_append, runs_compile, ih succeeds, List.nil_append]
  | @ran _ _ _ _ _ _ fragment _ result _ runs _ ih =>
    cases result with
    | error error => cases succeeds
    | ok others =>
      cases succeeds
      rw [List.filterMap_append, List.filterMap_append, runs_compile, transcript_run runs, ih rfl]
      rfl

end Fragments

theorem loadForms_append (compiler : Compiler σ μ) (forms others : List Datum) :
    compiler.loadForms (forms ++ others) = do
      let first ← compiler.loadForms forms
      let second ← compiler.loadForms others
      return first ++ second := by
  induction forms with
  | nil => simp [loadForms]
  | cons form forms ih =>
    rw [List.cons_append, loadForms, loadForms, bind_assoc]
    apply bind_congr
    intro code
    cases code with
    | none => exact ih
    | some fragment => simp [ih]

section Sources

variable {compiler : Compiler σ μ} {source : String} {forms : List Datum} {session : Session σ μ}

theorem load_of_read (read : Datum.readAll source = .ok forms) :
    compiler.load source = compiler.loadForms forms := by
  rw [load, read]

theorem transcript_load (read : Datum.readAll source = .ok forms) :
    compiler.transcript [.load source] session = calls (compiler.transcribed.loadForms forms) session := by
  rw [← load_of_read read]
  rfl

theorem load_of_unread {error : ReadError} (unread : Datum.readAll source = .error error) :
    compiler.load source session = .error (.read error) session := by
  rw [load, unread]
  rfl

theorem transcript_unread {error : ReadError} (unread : Datum.readAll source = .error error) :
    compiler.transcript [.load source] session = [] := by
  change (left (compiler.transcribed.load source (session.annotated []))).host.2 = []
  rw [load_of_unread unread]
  rfl

end Sources

/-- A source that cannot be read is refused, with no call of the host and no change. Otherwise its forms
are compiled and run one after the other up to the first failure, and on success the fragments are those
that were run. Behind a source that can be read, another one is loaded if the first one succeeds, as if
it were loaded by itself. -/
theorem load_stepwise (compiler : Compiler σ μ) (session : Session σ μ) (source : String) :
    (∀ error, Datum.readAll source = .error error →
      compiler.load source session = .error (.read error) session ∧
        compiler.transcript [.load source] session = []) ∧
    (∀ forms, Datum.readAll source = .ok forms → ∀ events result after,
      compiler.Loads forms session events result after ↔
        compiler.transcript [.load source] session = events ∧
          compiler.load source session = settled result after) ∧
    (∀ fragments after, compiler.load source session = .ok fragments after →
      (compiler.transcript [.load source] session).filterMap HostEvent.run? =
        fragments.map (·, .ok ())) ∧
    ∀ other, (∃ forms, Datum.readAll source = .ok forms) → (∃ others, Datum.readAll other = .ok others) →
      (∀ error after, compiler.load source session = .error error after →
        compiler.load (source ++ "\n" ++ other) session = .error error after ∧
          compiler.transcript [.load (source ++ "\n" ++ other)] session =
            compiler.transcript [.load source] session) ∧
      ∀ fragments middle, compiler.load source session = .ok fragments middle →
        compiler.load (source ++ "\n" ++ other) session =
            settled ((outcome (compiler.load other middle)).map (fragments ++ ·))
              (left (compiler.load other middle)) ∧
          compiler.transcript [.load (source ++ "\n" ++ other)] session =
            compiler.transcript [.load source] session ++ compiler.transcript [.load other] middle := by
  refine ⟨fun error unread => ⟨load_of_unread unread, transcript_unread unread⟩, ?_, ?_, ?_⟩
  · intro forms read events result after
    rw [transcript_load read, load_of_read read]
    exact loads_iff
  · intro fragments after done
    cases read : Datum.readAll source with
    | error error =>
      rw [load_of_unread read] at done
      cases done
    | ok forms =>
      rw [load_of_read read] at done
      have loads : compiler.Loads forms session _ (.ok fragments) after := loads_iff.mpr ⟨rfl, done⟩
      rw [transcript_load read]
      exact loads.runs rfl
  · intro other isRead otherRead
    rcases isRead with ⟨forms, read⟩
    rcases otherRead with ⟨others, readOther⟩
    have joined := Datum.readAll_append read readOther
    have first := compiler.transcribes_loadForms forms
    have second := compiler.transcribes_loadForms others
    rw [load_of_read joined, load_of_read read, load_of_read readOther, transcript_load joined,
      transcript_load read, loadForms_append, loadForms_append]
    constructor
    · intro error after failed
      exact ⟨bind_of_error failed, calls_bind_error first failed⟩
    · intro fragments middle done
      rw [bind_of_ok done, transcript_load readOther,
        calls_bind_ok first (second.bind fun more => .ofPure (fragments ++ more)) done, calls_map second]
      refine ⟨?_, rfl⟩
      cases rest : compiler.loadForms others middle with
      | ok more after => exact bind_of_ok rest
      | error error after => exact bind_of_error rest

/-- All macros expand to `7`, and the fifth call of the host fails if it runs a fragment. -/
def failingFifth : Compiler Nat Nat where
  target := .javascript
  host := .counting (fun _ calls => .ok calls) (fun _ _ _ => .ok (.integer 7))
    fun calls => if calls = 4 then .error (.raised "down") else .ok ()

theorem load_stepwise_failingFifth :
    failingFifth.load "(defmacro m 1) (m)" (.start 0) = .ok ["7"] ⟨3, .define .empty "m" 0⟩ ∧
    failingFifth.load "(m) (g)" ⟨3, .define .empty "m" 0⟩ =
      .error (.runtime (.raised "down")) ⟨5, .define .empty "m" 0⟩ ∧
    failingFifth.load ("(defmacro m 1) (m)" ++ "\n" ++ "(m) (g)") (.start 0) =
      .error (.runtime (.raised "down")) ⟨5, .define .empty "m" 0⟩ ∧
    failingFifth.transcript [.load ("(defmacro m 1) (m)" ++ "\n" ++ "(m) (g)")] (.start 0) =
      [.defined "m" "1" (.ok 0), .expanded 0 [] (.ok (.integer 7)), .ran "7" (.ok ()),
        .expanded 0 [] (.ok (.integer 7)), .ran "7" (.error (.raised "down"))] := by
  have first : failingFifth.load "(defmacro m 1) (m)" (.start 0) =
      .ok ["7"] ⟨3, .define .empty "m" 0⟩ := by
    cbv
  have second : failingFifth.load "(m) (g)" ⟨3, .define .empty "m" 0⟩ =
      .error (.runtime (.raised "down")) ⟨5, .define .empty "m" 0⟩ := by
    cbv
  have read : Datum.readAll "(defmacro m 1) (m)" = .ok
      [.list [.symbol "defmacro", .symbol "m", .integer 1], .list [.symbol "m"]] := by
    cbv
  have readOther : Datum.readAll "(m) (g)" = .ok [.list [.symbol "m"], .list [.symbol "g"]] := by cbv
  have whole := (load_stepwise failingFifth (.start 0) "(defmacro m 1) (m)").2.2.2 "(m) (g)"
    ⟨_, read⟩ ⟨_, readOther⟩
  rcases whole.2 _ _ first with ⟨joined, events⟩
  rw [second] at joined
  refine ⟨first, second, joined, events.trans ?_⟩
  cbv

end Compiler

end LispCompiler
