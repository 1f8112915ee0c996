import LispCompiler.Proofs.Compiler.Nesting
import LispCompiler.Proofs.Compiler.Sessions

namespace LispCompiler

section Names

inductive Datum.Defines (name : String) : Datum → Prop
  | here {function : Datum} :
      Defines name (.list [.symbol SpecialForm.defineMacro.name, .symbol name, function])
  | inside {item : Datum} {items : List Datum} (member : item ∈ items) (defines : Defines name item) :
      Defines name (.list items)

namespace Datum.Defines

variable {name : String}

theorem exists_mem {head : String} {args : List Datum} (other : head ≠ SpecialForm.defineMacro.name)
    (defines : Defines name (.list (.symbol head :: args))) : ∃ arg ∈ args, arg.Defines name := by
  cases defines with
  | here => exact absurd rfl other
  | @inside item _ member defines =>
    rcases List.mem_cons.mp member with rfl | member
    · cases defines
    · exact ⟨item, member, defines⟩

theorem of_quote {datum : Datum} (defines : (Template.quote datum).Defines name) :
    datum.Defines name := by
  rcases exists_mem (by decide) defines with ⟨arg, member, inner⟩
  obtain rfl := List.mem_singleton.mp member
  exact inner

theorem of_attach {link : Template.Link} {rest : Datum} (defines : (link.attach rest).Defines name) :
    (∃ item, (link = .cons item ∨ link = .concat item) ∧ item.Defines name) ∨ rest.Defines name := by
  have args : ∀ item : Datum, (∃ arg ∈ [item, rest], arg.Defines name) →
      item.Defines name ∨ rest.Defines name := by simp
  cases link with
  | cons item => exact (args item (exists_mem (by decide) defines)).imp_left (⟨item, .inl rfl, ·⟩)
  | concat items => exact (args items (exists_mem (by decide) defines)).imp_left (⟨items, .inr rfl, ·⟩)

end Datum.Defines

open Template in
mutual

/-- Expanding a template puts no definitions in. -/
theorem Template.defines_of_expand {name : String} (template : Datum) {expanded : Datum}
    (expands : expand template = .ok expanded) (defines : expanded.Defines name) :
    template.Defines name := by
  cases template with
  | list items =>
    rw [expand] at expands
    rcases bind_eq_ok.mp expands with ⟨⟨links, tail⟩, chained, whole⟩
    cases whole
    rcases defines_of_chain items chained defines with ⟨item, member, defines⟩
    exact .inside member defines
  | _ =>
    cases expands
    exact defines.of_quote

theorem Template.defines_of_chain {name : String} (items : List Datum) {links : List Link} {tail : Datum}
    (chained : chain items = .ok (links, tail))
    (defines : (links.foldr Link.attach tail).Defines name) : ∃ item ∈ items, item.Defines name := by
  cases items with
  | nil =>
    rw [chain] at chained
    cases chained
    cases defines.of_quote with
    | inside member _ => cases member
  | cons item items =>
    rcases chain_cons_eq_ok chained with ⟨-, rfl, rfl⟩ | ⟨operand, more, rfl, behind, rfl⟩ |
      ⟨-, -, head, more, expands, behind, rfl⟩
    · exact ⟨tail, by simp, defines⟩
    · rcases defines.of_attach with ⟨_, first | first, defines⟩ | rest
      · cases first
      · cases first
        exact ⟨_, List.mem_cons_self, .inside (List.mem_cons_of_mem _ List.mem_cons_self) defines⟩
      · rcases defines_of_chain items behind rest with ⟨other, member, defines⟩
        exact ⟨other, List.mem_cons_of_mem _ member, defines⟩
    · rcases defines.of_attach with ⟨_, first | first, defines⟩ | rest
      · cases first
        exact ⟨item, List.mem_cons_self, defines_of_expand item expands defines⟩
      · cases first
      · rcases defines_of_chain items behind rest with ⟨other, member, defines⟩
        exact ⟨other, List.mem_cons_of_mem _ member, defines⟩

end

end Names

section Invariants

/-- `x` leaves a state with the property wherever it starts in one, also where it fails. -/
def Keeps (held : σ → Prop) (x : EStateM ε σ α) : Prop :=
  ∀ state, held state → held (left (x state))

namespace Keeps

variable {held : σ → Prop}

theorem ofPure (value : α) : Keeps held (pure value : EStateM ε σ α) :=
  fun _ before => before

theorem ofThrow (error : ε) : Keeps held (throw error : EStateM ε σ α) :=
  fun _ before => before

theorem ofGet : Keeps held (get : EStateM ε σ σ) :=
  fun _ before => before

theorem ofModify {f : σ → σ} (keeps : ∀ state, held state → held (f state)) :
    Keeps held (modify f : EStateM ε σ PUnit) :=
  keeps

theorem bind {x : EStateM ε σ α} {f : α → EStateM ε σ β} (first : Keeps held x)
    (next : ∀ value, Keeps held (f value)) : Keeps held (x >>= f) := by
  intro state before
  have middle := first state before
  change held (left (EStateM.bind x f state))
  unfold EStateM.bind
  generalize x state = result at middle ⊢
  cases result with
  | ok value after => exact next value after middle
  | error error after => exact middle

end Keeps

abbrev KeepsSession (held : Session σ μ → Prop) (x : Emit σ μ α) : Prop :=
  Keeps (fun walk => held walk.toSession) x

theorem Walk.declare_toSession (walk : Walk σ μ) (name : String) :
    (walk.declare name).toSession = walk.toSession := by
  unfold declare
  split
  · rfl
  · rfl

namespace Compiler

variable {held : Session σ μ → Prop} {compiler : Compiler σ μ} {below : Below σ μ}

theorem keeps_within {enter leave : Walk σ μ → Walk σ μ} {body : Emit σ μ α}
    (enters : ∀ walk, (enter walk).toSession = walk.toSession)
    (leaves : ∀ walk, (leave walk).toSession = walk.toSession) (inside : KeepsSession held body) :
    KeepsSession held (Emit.within enter leave body) := by
  intro walk before
  rw [← enters walk] at before
  have after := inside (enter walk) before
  unfold Emit.within
  generalize body (enter walk) = result at after ⊢
  cases result with
  | ok value last => exact (congrArg held (leaves last)).mpr after
  | error error last => exact (congrArg held (leaves last)).mpr after

theorem keeps_expr {node : Datum} (inside : KeepsSession held (below node)) :
    KeepsSession held (compiler.expr below node) :=
  inside.bind fun _ => .ofPure _

theorem keeps_emitOperand (use : Use) {node : Datum} (inside : KeepsSession held (below node)) :
    KeepsSession held (compiler.emitOperand below use node) := by
  cases use with
  | value => exact (keeps_expr inside).bind fun _ => .ofPure _
  | callee =>
    have operand : KeepsSession held (compiler.operand below node) :=
      (keeps_expr inside).bind fun _ => Keeps.ofGet.bind fun _ => .ofPure _
    exact operand.bind fun _ => .ofPure _
  | statement => exact inside.bind fun _ => .ofPure _

theorem keeps_emitOperands {operands : List (Use × Datum)}
    (each : ∀ node ∈ operands.map Prod.snd, KeepsSession held (below node)) :
    KeepsSession held (compiler.emitOperands below operands) := by
  induction operands with
  | nil => exact .ofPure _
  | cons operand operands ih =>
    rw [List.map_cons, List.forall_mem_cons] at each
    exact (keeps_emitOperand operand.1 each.1).bind fun _ => (ih each.2).bind fun _ => .ofPure _

theorem keeps_emitConstruct {construct : Construct}
    (each : ∀ node ∈ construct.nodes, KeepsSession held (below node)) :
    KeepsSession held (compiler.emitConstruct below construct) := by
  have operands : KeepsSession held (compiler.emitOperands below construct.operands) :=
    keeps_emitOperands each
  unfold emitConstruct
  split
  · exact operands.bind fun _ => .ofPure _
  · have framed : KeepsSession held
        (do return (← compiler.emitOperands below construct.operands, (← get).locals)) :=
      operands.bind fun _ => Keeps.ofGet.bind fun _ => .ofPure _
    have bracketed : KeepsSession held (Emit.within Walk.enterFrame Walk.leaveFrame _) :=
      keeps_within (fun _ => rfl) (fun _ => rfl) framed
    exact bracketed.bind fun _ => .ofPure _
  · next name _ =>
    have declared : KeepsSession held (modify (Walk.declare name)) :=
      .ofModify fun walk before => (walk.declare_toSession name).symm ▸ before
    exact operands.bind fun _ => declared.bind fun _ => .ofPure _

end Compiler

end Invariants

section Record

def MacroTable.enter (table : MacroTable μ) : HostEvent μ → MacroTable μ
  | .defined name _ (.ok expander) => table.define name expander
  | _ => table

def HostEvent.definition? (name : String) : HostEvent μ → Option μ
  | .defined other _ (.ok expander) => if other = name then some expander else none
  | _ => none

theorem MacroTable.get?_enter (table : MacroTable μ) (event : HostEvent μ) (name : String) :
    (table.enter event).get? name = (event.definition? name).or (table.get? name) := by
  cases event with
  | defined other fragment answer =>
    cases answer with
    | ok expander =>
      by_cases same : other = name
      · simp [enter, define, get?, HostEvent.definition?, same]
      · simp [enter, define, get?, HostEvent.definition?, same, Std.TreeMap.getElem?_insert]
    | error error => rfl
  | expanded expander args answer => rfl
  | ran fragment answer => rfl

theorem MacroTable.contains_eq_isSome (table : MacroTable μ) (name : String) :
    table.contains name = (table.get? name).isSome := by
  simp [contains, get?]

/-- The last successful definition of a name counts, and else what the table started with. -/
theorem MacroTable.get?_foldl_enter (table : MacroTable μ) (events : List (HostEvent μ)) (name : String) :
    (events.foldl enter table).get? name =
      (events.reverse.findSome? (·.definition? name)).or (table.get? name) := by
  induction events generalizing table with
  | nil => rfl
  | cons event events ih =>
    rw [List.foldl_cons, ih, get?_enter, List.reverse_cons, List.findSome?_append, Option.or_assoc]
    simp

variable {initial : MacroTable μ} {roots : List Datum} {base events : List (HostEvent μ)}

def Sourced (roots : List Datum) (events : List (HostEvent μ)) (name : String) : Prop :=
  ∃ datum, (datum ∈ roots ∨ ∃ expander args, .expanded expander args (.ok datum) ∈ events) ∧
    datum.Defines name

theorem Sourced.mono {later : List (HostEvent μ)} (grown : events ⊆ later) {name : String}
    (sourced : Sourced roots events name) : Sourced roots later name := by
  rcases sourced with ⟨datum, root | ⟨expander, args, member⟩, defines⟩
  · exact ⟨datum, .inl root, defines⟩
  · exact ⟨datum, .inr ⟨expander, args, grown member⟩, defines⟩

/-- The transcript accounts for the macros of the session, and it still has all calls of `base`. -/
structure Chronicled (initial : MacroTable μ) (roots : List Datum) (base : List (HostEvent μ))
    (session : Session (σ × List (HostEvent μ)) μ) : Prop where
  macros : session.macros = session.host.2.foldl MacroTable.enter initial
  sourced : ∀ name fragment answer, .defined name fragment answer ∈ session.host.2 →
    Sourced roots session.host.2 name
  grown : base ⊆ session.host.2

namespace Chronicled

variable {session : Session (σ × List (HostEvent μ)) μ}

theorem record (held : Chronicled initial roots base session) {event : HostEvent μ}
    (sourced : ∀ name fragment answer, event = .defined name fragment answer → Sourced roots base name)
    (state : σ) :
    Chronicled initial roots base ⟨(state, session.host.2 ++ [event]), session.macros.enter event⟩ where
  macros := by simp [held.macros]
  sourced := by
    have longer : session.host.2 ⊆ session.host.2 ++ [event] := List.subset_append_left _ _
    intro name fragment answer member
    rcases List.mem_append.mp member with member | member
    · exact (held.sourced name fragment answer member).mono longer
    · have last := sourced name fragment answer (List.mem_singleton.mp member).symm
      exact last.mono (List.Subset.trans held.grown longer)
  grown := List.Subset.trans held.grown (List.subset_append_left _ _)

theorem rebase (held : Chronicled initial roots base session) :
    Chronicled initial roots session.host.2 session :=
  { held with grown := List.Subset.refl _ }

theorem weaken {later : List (HostEvent μ)} (held : Chronicled initial roots later session)
    (earlier : base ⊆ later) : Chronicled initial roots base session :=
  { held with grown := List.Subset.trans earlier held.grown }

end Chronicled

end Record

theorem Role.eq_of_special {macros : MacroTable μ} {head : Datum} {form : SpecialForm}
    (role : Role.ofHead macros head = .special form) : head = .symbol form.name := by
  rcases SpecialForm.named_or_ordinary head with ⟨other, rfl⟩ | ordinary
  · simp only [Role.ofHead, SpecialForm.ofName?_name, Role.special.injEq] at role
    rw [role]
  · cases head with
    | symbol name =>
      simp only [Role.ofHead, SpecialForm.ofName?_eq_none ordinary] at role
      split at role <;> cases role
    | _ => cases role

namespace Compiler

variable {compiler : Compiler σ μ} {initial : MacroTable μ} {roots : List Datum}
  {base : List (HostEvent μ)}

def Permitted (roots : List Datum) (base : List (HostEvent μ)) (node : Datum) : Prop :=
  ∀ name, node.Defines name → Sourced roots base name

theorem Permitted.of_mem {items : List Datum} (permitted : Permitted roots base (.list items))
    {item : Datum} (member : item ∈ items) : Permitted roots base item :=
  fun name defines => permitted name (.inside member defines)

theorem ofHost_transcribe (wrap : HostError → CompileError) (event : Except HostError α → HostEvent μ)
    (action : EStateM HostError σ α) (walk : Walk (σ × List (HostEvent μ)) μ) :
    Emit.ofHost wrap (Host.transcribe event action) walk =
      let result := action walk.host.1
      settled ((outcome result).mapError wrap)
        { walk with host := (left result, walk.host.2 ++ [event (outcome result)]) } := by
  unfold Emit.ofHost Host.transcribe
  dsimp only
  cases action walk.host.1 with
  | ok value state => rfl
  | error error state => rfl

section Walks

variable {below : Below (σ × List (HostEvent μ)) μ}

theorem keeps_defineMacro {name : String} {function : Datum} (sourced : Sourced roots base name)
    (inside : KeepsSession (Chronicled initial roots base) (below function)) :
    KeepsSession (Chronicled initial roots base)
      (compiler.transcribed.defineMacro below name function) := by
  refine (keeps_expr inside).bind fun fragment => ?_
  intro walk held
  have recorded : ∀ answer (state : σ), Chronicled initial roots base
      ⟨(state, walk.host.2 ++ [.defined name fragment answer]),
        walk.macros.enter (.defined name fragment answer)⟩ := by
    intro answer state
    refine held.record ?_ state
    intro _ _ _ same
    cases same
    exact sourced
  -- between the two steps the definition is in the transcript and not yet in the table
  change Chronicled initial roots base
    (left (EStateM.bind (Emit.ofHost _ (Host.transcribe _ _)) _ walk)).toSession
  unfold EStateM.bind
  rw [ofHost_transcribe]
  cases compiler.host.evalMacro name fragment walk.host.1 with
  | ok expander state => exact recorded (.ok expander) state
  | error error state => exact recorded (.error error) state

theorem keeps_macroCall {levels : Nat} (name : String) (expander : μ) (args : List Datum)
    (each : ∀ later node, Permitted roots later node →
      KeepsSession (Chronicled initial roots later) (compiler.transcribed.node levels node)) :
    KeepsSession (Chronicled initial roots base)
      (compiler.transcribed.macroCall (compiler.transcribed.node levels) name expander args) := by
  refine Keeps.ofGet.bind fun walk => ?_
  split
  · exact .ofThrow _
  intro walk held
  have recorded : ∀ answer (state : σ), Chronicled initial roots base
      ⟨(state, walk.host.2 ++ [.expanded expander args answer]), walk.macros⟩ :=
    fun answer state => held.record (fun _ _ _ other => by cases other) state
  change Chronicled initial roots base
    (left (EStateM.bind (Emit.ofHost _ (Host.transcribe _ _)) _ walk)).toSession
  unfold EStateM.bind
  rw [ofHost_transcribe]
  cases compiler.host.expand expander args walk.host.1 with
  | error error state => exact recorded (.error error) state
  | ok expansion state =>
    have called := recorded (.ok expansion) state
    have permitted : Permitted roots (walk.host.2 ++ [.expanded expander args (.ok expansion)]) expansion :=
      fun name defines => ⟨expansion, .inr ⟨expander, args, by simp⟩, defines⟩
    have inside : KeepsSession (Chronicled initial roots _) (Emit.within Walk.enterExpansion
        Walk.leaveExpansion (compiler.transcribed.node levels expansion)) :=
      keeps_within (fun _ => rfl) (fun _ => rfl) (each _ expansion permitted)
    exact (inside _ called.rebase).weaken called.grown

/-- What a special form compiles defines no more than the special form does. -/
theorem Permitted.part {form : SpecialForm} {args parts : List Datum}
    (permitted : Permitted roots base (.list (.symbol form.name :: args)))
    (fits : form.compiled? args = some parts) {part : Datum} (compiled : part ∈ parts) :
    Permitted roots base part := by
  intro name defines
  apply permitted name
  by_cases isTemplate : form = .quasiquote
  · subst isTemplate
    rcases SpecialForm.quasiquote_compiled?.mp fits with ⟨template, expanded, rfl, -, expands, rfl⟩
    obtain rfl := List.mem_singleton.mp compiled
    exact .inside (by simp) (Template.defines_of_expand template expands defines)
  · rcases SpecialForm.compiled?_occurs isTemplate fits compiled with member | ⟨inner, member, inside⟩
    · exact .inside (List.mem_cons_of_mem _ member) defines
    · exact .inside (List.mem_cons_of_mem _ member) (.inside inside defines)

theorem specialPlan_defineMacro {target : Target} {args : List Datum} {name : String} {function : Datum}
    (plan : (specialPlan target .defineMacro args : Plan μ) = .defineMacro name function) :
    args = [.symbol name, function] := by
  match args with
  | [head, body] =>
    cases head with
    | symbol other =>
      cases plan
      rfl
    | _ => cases plan
  | [] | [_] | _ :: _ :: _ :: _ => cases plan

theorem keeps_special {form : SpecialForm} {args : List Datum}
    (permitted : Permitted roots base (.list (.symbol form.name :: args)))
    (each : ∀ node, Permitted roots base node → KeepsSession (Chronicled initial roots base) (below node)) :
    KeepsSession (Chronicled initial roots base) (compiler.transcribed.special below form args) := by
  have fits : Plan.Fits args form (specialPlan compiler.transcribed.target form args : Plan μ)
      (form.compiled? args) := specialPlan_fits _ form args
  rw [special_eq]
  generalize plan : (specialPlan compiler.transcribed.target form args : Plan μ) = plan at fits ⊢
  generalize shape : form.compiled? args = parts at fits
  cases fits with
  | refused => exact .ofThrow _
  | replaced => exact each _ (permitted.part shape (List.mem_singleton_self _))
  | macroDefined =>
    obtain rfl := specialPlan_defineMacro plan
    refine (keeps_defineMacro (permitted _ .here) ?_).bind fun _ => .ofPure _
    exact each _ (permitted.part shape (List.mem_singleton_self _))
  | built same =>
    refine keeps_emitConstruct fun node member => each node ?_
    exact permitted.part shape ((same node).mp member)

theorem keeps_list {levels : Nat} {items : List Datum} (permitted : Permitted roots base (.list items))
    (each : ∀ later node, Permitted roots later node →
      KeepsSession (Chronicled initial roots later) (compiler.transcribed.node levels node)) :
    KeepsSession (Chronicled initial roots base)
      (compiler.transcribed.list (compiler.transcribed.node levels) items) := by
  cases items with
  | nil => exact .ofThrow _
  | cons head args =>
    refine Keeps.ofGet.bind fun walk => ?_
    cases role : Role.ofHead walk.macros head with
    | special form =>
      obtain rfl := Role.eq_of_special role
      exact keeps_special permitted (each base)
    | macroCall name expander => exact keeps_macroCall name expander args each
    | application =>
      rw [application_eq]
      refine keeps_emitConstruct fun node member => each base node (permitted.of_mem ?_)
      simpa [callPlan, Construct.nodes, Function.comp_def] using member

/-- The step: a node leaves the transcript accounting for the macros, if the nodes below it do. -/
theorem keeps_step {levels : Nat} {node : Datum} (permitted : Permitted roots base node)
    (each : ∀ later node, Permitted roots later node →
      KeepsSession (Chronicled initial roots later) (compiler.transcribed.node levels node)) :
    KeepsSession (Chronicled initial roots base)
      (compiler.transcribed.step (compiler.transcribed.node levels) node) := by
  by_cases isAtom : node.items? = none
  · rw [step_atom _ _ isAtom]
    exact .ofPure _
  cases node with
  | list items =>
    refine Keeps.ofGet.bind fun walk => ?_
    split
    · exact .ofThrow _
    · exact keeps_within (fun _ => rfl) (fun _ => rfl) (keeps_list permitted each)
  | _ => exact absurd rfl isAtom

theorem keeps_node (levels : Nat) {node : Datum} (permitted : Permitted roots base node) :
    KeepsSession (Chronicled initial roots base) (compiler.transcribed.node levels node) := by
  induction levels generalizing base node with
  | zero => exact .ofThrow _
  | succ levels ih => exact keeps_step permitted fun later node permitted => ih permitted

end Walks

section Requests

variable (roots) in
abbrev Recorded (initial : MacroTable μ) : Session (σ × List (HostEvent μ)) μ → Prop :=
  Chronicled initial roots []

theorem keeps_compile {form : Datum} (root : form ∈ roots) :
    Keeps (Recorded roots initial) (compiler.transcribed.compile form) := by
  intro session held
  have permitted : Permitted roots ([] : List (HostEvent μ)) form :=
    fun name defines => ⟨form, .inl root, defines⟩
  have node : KeepsSession (Recorded roots initial) (compiler.transcribed.node maxLevels form) :=
    keeps_node maxLevels permitted
  have after := node (Walk.start session) held
  unfold compile
  generalize compiler.transcribed.node maxLevels form (Walk.start session) = result at after ⊢
  cases result with
  | ok code walk => exact after
  | error error walk => exact after

theorem keeps_run (fragment : String) :
    Keeps (Recorded roots initial) (compiler.transcribed.run fragment) := by
  intro session held
  have recorded : ∀ answer (state : σ), Recorded roots initial
      ⟨(state, session.host.2 ++ [.ran fragment answer]), session.macros⟩ :=
    fun answer state => held.record (fun _ _ _ other => by cases other) state
  simp only [run, transcribed, Host.transcribed, Host.transcribe]
  cases compiler.host.run fragment session.host.1 with
  | ok value state => exact recorded (.ok value) state
  | error error state => exact recorded (.error error) state

theorem keeps_loadForms {forms : List Datum} (all : ∀ form ∈ forms, form ∈ roots) :
    Keeps (Recorded roots initial) (compiler.transcribed.loadForms forms) := by
  induction forms with
  | nil => exact .ofPure _
  | cons form forms ih =>
    rw [List.forall_mem_cons] at all
    refine (keeps_compile all.1).bind fun code => ?_
    cases code with
    | none => exact ih all.2
    | some fragment => exact (keeps_run fragment).bind fun _ => (ih all.2).bind fun _ => .ofPure _

theorem keeps_compileNext {form : Datum} (root : form ∈ roots) :
    Keeps (fun emission => Recorded roots initial emission.toSession)
      (compiler.transcribed.compileNext form) := by
  intro emission held
  have compile : Keeps (Recorded roots initial) (compiler.transcribed.compile form) := keeps_compile root
  have after := compile emission.toSession held
  unfold compileNext
  generalize compiler.transcribed.compile form emission.toSession = result at after ⊢
  cases result with
  | ok code session => exact after
  | error error session => exact after

theorem keeps_writeOut {held : Session σ μ → Prop} (text : String) :
    Keeps (fun emission : Emission σ μ => held emission.toSession) (writeOut text) := by
  intro emission before
  unfold writeOut
  cases Sink.write text emission.sink with
  | ok value sink => exact before
  | error message sink => exact before

theorem keeps_emit {forms : List Datum} (all : ∀ form ∈ forms, form ∈ roots) :
    Keeps (fun emission => Recorded roots initial emission.toSession)
      (compiler.transcribed.emit forms) := by
  induction forms with
  | nil => exact .ofPure _
  | cons form forms ih =>
    rw [List.forall_mem_cons] at all
    refine (keeps_compileNext all.1).bind fun code => ?_
    cases code with
    | none => exact ih all.2
    | some fragment => exact (keeps_writeOut _).bind fun _ => ih all.2

theorem recorded_reply {request : Request} (all : ∀ form ∈ request.forms, form ∈ roots)
    {session : Session (σ × List (HostEvent μ)) μ} (held : Recorded roots initial session) :
    Recorded roots initial (compiler.transcribed.reply session request).2 := by
  cases request with
  | compile form => exact keeps_compile (all form (List.mem_singleton_self _)) session held
  | load source =>
    change Recorded roots initial (left (compiler.transcribed.load source session))
    unfold load
    cases read : Datum.readAll source with
    | ok forms =>
      refine keeps_loadForms (fun form member => all form ?_) session held
      simpa [Request.forms, read, Except.toOption] using member
    | error error => exact held
  | emit forms sink => exact keeps_emit all ⟨session, sink⟩ held
  | run fragment => exact keeps_run fragment session held

theorem recorded_serve {requests : List Request}
    (all : ∀ request ∈ requests, ∀ form ∈ request.forms, form ∈ roots)
    {session : Session (σ × List (HostEvent μ)) μ} (held : Recorded roots initial session) :
    Recorded roots initial (compiler.transcribed.serve requests session).2 := by
  induction requests generalizing session with
  | nil => exact held
  | cons request requests ih =>
    rw [List.forall_mem_cons] at all
    exact ih all.2 (recorded_reply all.1 held)

end Requests

/-- The host calls of a run account for its macros: the table is the one that the session started with,
overridden by each definition that succeeded, in their order. So the last success under a name counts,
failures change nothing, and no name is lost. The names are those that `defmacro` forms give, in the
forms of the requests or in expansions. -/
theorem serve_macros (compiler : Compiler σ μ) (requests : List Request) (session : Session σ μ) :
    let events := compiler.transcript requests session
    let after := (compiler.serve requests session).2
    compiler.transcribed.serve requests (session.annotated []) =
        ((compiler.serve requests session).1, after.annotated events) ∧
      after.macros = events.foldl MacroTable.enter session.macros ∧
      (∀ name, after.macros.get? name =
        (events.reverse.findSome? (·.definition? name)).or (session.macros.get? name)) ∧
      (∀ name, session.macros.contains name → after.macros.contains name) ∧
      ∀ name fragment answer, .defined name fragment answer ∈ events →
        ∃ datum, (datum ∈ requests.flatMap Request.forms ∨
            ∃ expander args, .expanded expander args (.ok datum) ∈ events) ∧
          datum.Defines name := by
  intro events after
  have transcribed := compiler.transcribed_serve requests session
  have recorded : Recorded (requests.flatMap Request.forms) session.macros
      (compiler.transcribed.serve requests (session.annotated [])).2 :=
    recorded_serve (fun request asked form member => List.mem_flatMap.mpr ⟨request, asked, member⟩)
      ⟨rfl, nofun, List.nil_subset _⟩
  rw [transcribed] at recorded
  have entries : ∀ name, after.macros.get? name =
      (events.reverse.findSome? (·.definition? name)).or (session.macros.get? name) := by
    intro name
    rw [← MacroTable.get?_foldl_enter]
    exact congrArg (MacroTable.get? · name) recorded.macros
  refine ⟨transcribed, recorded.macros, entries, ?_, recorded.sourced⟩
  intro name there
  rw [MacroTable.contains_eq_isSome] at there ⊢
  rw [entries, Option.isSome_or, there, Bool.or_true]

def redefining : Compiler Nat Nat where
  target := .javascript
  host := .counting
    (fun _ calls => if calls = 1 then .error (.raised "twice") else .ok calls)
    (fun _ _ _ => .ok (.list [.symbol "defmacro", .symbol "a-b", .nil])) fun _ => .ok ()

theorem serve_macros_redefining :
    let requests : List Request :=
      [.compile (.list [.symbol "defmacro", .symbol "m", .integer 7]),
        .emit [.list [.symbol "defmacro", .symbol "m", .integer 8]] .unlimited,
        .compile (.list [.symbol "m"])]
    let after := (redefining.serve requests (.start 0)).2
    redefining.transcript requests (.start 0) =
        [.defined "m" "7" (.ok 0), .defined "m" "8" (.error (.raised "twice")),
          .expanded 0 [] (.ok (.list [.symbol "defmacro", .symbol "a-b", .nil])),
          .defined "a-b" "null" (.ok 3)] ∧
      after.macros.get? "m" = some 0 ∧ after.macros.get? "a-b" = some 3 ∧
      after.macros.get? "a_b" = none := by
  intro requests after
  have entries := (serve_macros redefining requests (.start 0)).2.2.1
  exact ⟨rfl, entries "m", entries "a-b", entries "a_b"⟩

end Compiler

end LispCompiler
