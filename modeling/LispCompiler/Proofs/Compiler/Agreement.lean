import LispCompiler.Compiler.Program
import LispCompiler.Proofs.Target.Code

/-!
Two compilers that agree: their targets may differ, and their hosts may keep different states, but
they emit renderings of the same code and fail in the same ways. Main statement: where the hosts
agree on renderings of the same code, the compilers do.
-/

namespace LispCompiler

inductive SameOutcome (states : σ → τ → Prop) (values : α → β → Prop) :
    EStateM.Result ε σ α → EStateM.Result ε τ β → Prop
  | ok {a : α} {b : β} {s : σ} {t : τ} (value : values a b) (state : states s t) :
      SameOutcome states values (.ok a s) (.ok b t)
  | error {e : ε} {s : σ} {t : τ} (state : states s t) :
      SameOutcome states values (.error e s) (.error e t)

def Agree (states : σ → τ → Prop) (values : α → β → Prop) (first : EStateM ε σ α)
    (second : EStateM ε τ β) : Prop :=
  ∀ s t, states s t → SameOutcome states values (first s) (second t)

namespace Agree

variable {states : σ → τ → Prop} {values : α → β → Prop} {results : γ → δ → Prop}

theorem refl (x : EStateM ε σ α) : Agree Eq Eq x x := by
  intro s t same
  subst same
  cases x s with
  | ok value state => exact .ok rfl rfl
  | error error state => exact .error rfl

theorem ofPure {a : α} {b : β} (value : values a b) :
    Agree states values (pure a : EStateM ε σ α) (pure b) :=
  fun _ _ related => .ok value related

theorem ofThrow (e : ε) : Agree states values (throw e : EStateM ε σ α) (throw e) :=
  fun _ _ related => .error related

theorem ofGet : Agree states states (get : EStateM ε σ σ) get :=
  fun _ _ related => .ok related related

theorem ofModify {f : σ → σ} {g : τ → τ} (keeps : ∀ s t, states s t → states (f s) (g t)) :
    Agree states Eq (modify f : EStateM ε σ PUnit) (modify g) :=
  fun s t related => .ok rfl (keeps s t related)

theorem bind {x : EStateM ε σ α} {y : EStateM ε τ β} {f : α → EStateM ε σ γ}
    {g : β → EStateM ε τ δ} (first : Agree states values x y)
    (next : ∀ a b, values a b → Agree states results (f a) (g b)) :
    Agree states results (x >>= f) (y >>= g) := by
  intro s t related
  change SameOutcome states results (EStateM.bind x f s) (EStateM.bind y g t)
  unfold EStateM.bind
  have outcome := first s t related
  generalize x s = left, y t = right at outcome
  cases outcome with
  | ok value state => exact next _ _ value _ _ state
  | error state => exact .error state

end Agree

def MacroTable.SameMacros (first second : MacroTable μ) : Prop :=
  ∀ name, SpecialForm.ofName? name = none → first.get? name = second.get? name

namespace MacroTable.SameMacros

variable {first second : MacroTable μ}

theorem refl (table : MacroTable μ) : SameMacros table table :=
  fun _ _ => rfl

theorem define (same : SameMacros first second) (name : String) (expander : μ) :
    SameMacros (first.define name expander) (second.define name expander) := by
  intro other ordinary
  have before := same other ordinary
  simp only [get?, MacroTable.define, Std.TreeMap.getElem?_insert] at before ⊢
  rw [before]

theorem role_eq (same : SameMacros first second) (head : Datum) :
    Role.ofHead first head = Role.ofHead second head := by
  cases head with
  | symbol name =>
    cases ordinary : SpecialForm.ofName? name with
    | none => simp only [Role.ofHead, ordinary, same name ordinary]
    | some form => simp only [Role.ofHead, ordinary]
  | _ => rfl

theorem contains_eq (same : SameMacros first second) {name : String}
    (ordinary : SpecialForm.ofName? name = none) : first.contains name = second.contains name := by
  have entries := congrArg Option.isSome (same name ordinary)
  simpa [MacroTable.contains, get?] using entries

theorem isTight_eq (same : SameMacros first second) (node : Datum) :
    isTight first node = isTight second node := by
  unfold isTight
  split
  · rfl
  · rfl
  · next head _ =>
    cases ordinary : SpecialForm.ofName? head with
    | none => simp only [same.contains_eq ordinary]
    | some form => cases form <;> rfl
  · rfl
  · rfl

end MacroTable.SameMacros

/-- How the sessions of two compilers are related: the states of their hosts, and their macros, which
may differ only where no macro call can see it. -/
structure Pairing (σ τ μ : Type) where
  hosts : σ → τ → Prop
  tables : MacroTable μ → MacroTable μ → Prop
  same {first second : MacroTable μ} (related : tables first second) : first.SameMacros second
  define {first second : MacroTable μ} (name : String) (expander : μ)
    (related : tables first second) : tables (first.define name expander) (second.define name expander)

def Pairing.ofHosts (hosts : σ → τ → Prop) : Pairing σ τ μ where
  hosts := hosts
  tables := Eq
  same := by
    intro table other same
    subst other
    exact .refl table
  define := by
    rintro table _ name expander rfl
    rfl

structure Session.Alike (pairing : Pairing σ τ μ) (first : Session σ μ) (second : Session τ μ) :
    Prop where
  host : pairing.hosts first.host second.host
  macros : pairing.tables first.macros second.macros

structure Walk.Alike (pairing : Pairing σ τ μ) (first : Walk σ μ) (second : Walk τ μ) : Prop
    extends Session.Alike pairing first.toSession second.toSession where
  frames : first.frames = second.frames
  named : ∀ frame ∈ first.frames, ∀ name ∈ frame, Identifier.IsName name
  expansions : first.expansions = second.expansions
  nesting : first.nesting = second.nesting

theorem Session.Alike.start {pairing : Pairing σ τ μ} {first : Session σ μ} {second : Session τ μ}
    (alike : Alike pairing first second) : Walk.Alike pairing (Walk.start first) (Walk.start second) where
  toAlike := alike
  frames := rfl
  named := by simp [Walk.start]
  expansions := rfl
  nesting := rfl

namespace Walk.Alike

variable {pairing : Pairing σ τ μ} {first : Walk σ μ} {second : Walk τ μ}

theorem locals_eq (alike : Alike pairing first second) : first.locals = second.locals := by
  simp only [locals, alike.frames]

theorem locals_named (alike : Alike pairing first second) :
    ∀ name ∈ first.locals, Identifier.IsName name := by
  cases frames : first.frames with
  | nil => simp [locals, frames]
  | cons frame outer =>
    simp only [locals, frames, List.headD_cons]
    exact alike.named frame (by simp [frames])

theorem enterList (alike : Alike pairing first second) :
    Alike pairing first.enterList second.enterList :=
  { alike with nesting := congrArg (· + 1) alike.nesting }

theorem leaveList (alike : Alike pairing first second) :
    Alike pairing first.leaveList second.leaveList :=
  { alike with nesting := congrArg (· - 1) alike.nesting }

theorem enterExpansion (alike : Alike pairing first second) :
    Alike pairing first.enterExpansion second.enterExpansion :=
  { alike with
    expansions := congrArg (· + 1) alike.expansions
    nesting := congrArg (· - 1) alike.nesting }

theorem leaveExpansion (alike : Alike pairing first second) :
    Alike pairing first.leaveExpansion second.leaveExpansion :=
  { alike with
    expansions := congrArg (· - 1) alike.expansions
    nesting := congrArg (· + 1) alike.nesting }

theorem enterFrame (alike : Alike pairing first second) :
    Alike pairing first.enterFrame second.enterFrame :=
  { alike with
    frames := congrArg ([] :: ·) alike.frames
    named := List.forall_mem_cons.mpr ⟨by simp, alike.named⟩ }

theorem leaveFrame (alike : Alike pairing first second) :
    Alike pairing first.leaveFrame second.leaveFrame :=
  { alike with
    frames := congrArg List.tail alike.frames
    named := fun frame member => alike.named frame (List.mem_of_mem_tail member) }

theorem declare (alike : Alike pairing first second) {name : String}
    (isName : Identifier.IsName name) :
    Alike pairing (first.declare name) (second.declare name) := by
  rcases alike with ⟨session, frames, named, expansions, nesting⟩
  unfold Walk.declare
  rw [← frames]
  cases own : first.frames with
  | nil => exact ⟨session, frames, named, expansions, nesting⟩
  | cons frame outer =>
    rw [own, List.forall_mem_cons] at named
    refine ⟨session, rfl, List.forall_mem_cons.mpr ⟨?_, named.2⟩, expansions, nesting⟩
    split
    · exact named.1
    · exact List.forall_mem_append.mpr ⟨named.1, List.forall_mem_singleton.mpr isName⟩

theorem defineMacro (alike : Alike pairing first second) (name : String) (expander : μ) :
    Alike pairing { first with macros := first.macros.define name expander }
      { second with macros := second.macros.define name expander } :=
  { alike with macros := pairing.define name expander alike.macros }

end Walk.Alike

namespace Emit

variable {pairing : Pairing σ τ μ} {values : α → β → Prop}

theorem agree_within {walks inner : Walk σ μ → Walk τ μ → Prop} {enter leave : Walk σ μ → Walk σ μ}
    {enter' leave' : Walk τ μ → Walk τ μ} {body : Emit σ μ α} {body' : Emit τ μ β}
    (enters : ∀ s t, walks s t → inner (enter s) (enter' t))
    (leaves : ∀ s t, inner s t → walks (leave s) (leave' t)) (inside : Agree inner values body body') :
    Agree walks values (within enter leave body) (within enter' leave' body') := by
  intro s t related
  unfold within
  have outcome := inside _ _ (enters s t related)
  generalize body (enter s) = left, body' (enter' t) = right at outcome
  cases outcome with
  | ok value state => exact .ok value (leaves _ _ state)
  | error state => exact .error (leaves _ _ state)

theorem agree_ofHost (wrap : HostError → CompileError) {action : EStateM HostError σ α}
    {action' : EStateM HostError τ β} (hostly : Agree pairing.hosts values action action') :
    Agree (Walk.Alike pairing) values (ofHost wrap action : Emit σ μ α) (ofHost wrap action') := by
  intro s t alike
  unfold ofHost
  have outcome := hostly _ _ alike.host
  generalize action s.host = left, action' t.host = right at outcome
  cases outcome with
  | ok value state => exact .ok value { alike with host := state }
  | error state => exact .error { alike with host := state }

end Emit

namespace Code

def Renders (first second : Target) (a b : String) : Prop :=
  ∃ code : Code, code.render first = a ∧ code.render second = b

def RendersAll (first second : Target) (as bs : List String) : Prop :=
  ∃ codes : List Code, renderAll first codes = as ∧ renderAll second codes = bs

end Code

namespace Compiler

open Code

/-- Hosts that give the same answers to renderings of the same code. -/
structure HostsAgree (pairing : Pairing σ τ μ) (first : Compiler σ μ) (second : Compiler τ μ) : Prop where
  evalMacro (name : String) (code : Code) :
    Agree pairing.hosts Eq (first.host.evalMacro name (code.render first.target))
      (second.host.evalMacro name (code.render second.target))
  expand (expander : μ) (args : List Datum) :
    Agree pairing.hosts Eq (first.host.expand expander args) (second.host.expand expander args)

variable {pairing : Pairing σ τ μ} {first : Compiler σ μ} {second : Compiler τ μ}

variable (pairing first second) in
def BelowAgree (below : Below σ μ) (below' : Below τ μ) : Prop :=
  ∀ node, Agree (Walk.Alike pairing) (Option.Rel (Renders first.target second.target)) (below node)
    (below' node)

variable {below : Below σ μ} {below' : Below τ μ}

theorem agree_expr (agree : BelowAgree pairing first second below below') (node : Datum) :
    Agree (Walk.Alike pairing) (Renders first.target second.target) (first.expr below node)
      (second.expr below' node) := by
  apply (agree node).bind
  intro a b same
  cases same with
  | some same => exact .ofPure same
  | none => exact .ofPure ⟨.nil, rfl, rfl⟩

theorem agree_exprs (agree : BelowAgree pairing first second below below') (nodes : List Datum) :
    Agree (Walk.Alike pairing) (RendersAll first.target second.target) (first.exprs below nodes)
      (second.exprs below' nodes) := by
  induction nodes with
  | nil => exact .ofPure ⟨[], rfl, rfl⟩
  | cons node nodes ih =>
    apply (agree_expr agree node).bind
    intro left right same
    rcases same with ⟨code, rfl, rfl⟩
    apply ih.bind
    intro left right same
    rcases same with ⟨codes, rfl, rfl⟩
    exact .ofPure ⟨code :: codes, rfl, rfl⟩

theorem agree_body (agree : BelowAgree pairing first second below below') (nodes : List Datum) :
    Agree (Walk.Alike pairing) (RendersAll first.target second.target) (body below nodes)
      (body below' nodes) := by
  induction nodes with
  | nil => exact .ofPure ⟨[], rfl, rfl⟩
  | cons node nodes ih =>
    apply (agree node).bind
    intro a b same
    apply ih.bind
    intro left right same
    rcases same with ⟨codes, rfl, rfl⟩
    cases same with
    | none => exact .ofPure ⟨codes, rfl, rfl⟩
    | some same =>
      rcases same with ⟨code, rfl, rfl⟩
      exact .ofPure ⟨code :: codes, rfl, rfl⟩

theorem agree_operand (agree : BelowAgree pairing first second below below') (node : Datum) :
    Agree (Walk.Alike pairing) (Renders first.target second.target) (first.operand below node)
      (second.operand below' node) := by
  apply (agree_expr agree node).bind
  intro left right same
  rcases same with ⟨code, rfl, rfl⟩
  apply Agree.ofGet.bind
  intro s t alike
  rw [(pairing.same alike.macros).isTight_eq]
  apply Agree.ofPure
  split
  · exact ⟨code, rfl, rfl⟩
  · exact ⟨.parens code, rfl, rfl⟩

theorem agree_lambda (agree : BelowAgree pairing first second below below') (params : Datum)
    (nodes : List Datum) :
    Agree (Walk.Alike pairing) (Renders first.target second.target) (first.lambda below params nodes)
      (second.lambda below' params nodes) := by
  unfold lambda
  cases found : Parameters.ofDatum? params with
  | none => exact .ofThrow _
  | some names =>
    rcases Parameters.ofDatum?_sources found with ⟨fixed, rest, rfl⟩
    -- The body comes with the names that it binds, which are the same in both walks.
    have inside : Agree (Walk.Alike pairing)
        (fun a b => RendersAll first.target second.target a.1 b.1 ∧ a.2 = b.2 ∧
          ∀ name ∈ a.2, Identifier.IsName name)
        (do return (← body below nodes, (← get).locals))
        (do return (← body below' nodes, (← get).locals)) := by
      apply (agree_body agree nodes).bind
      intro as bs same
      apply Agree.ofGet.bind
      intro s t alike
      exact .ofPure ⟨same, alike.locals_eq, alike.locals_named⟩
    apply (Emit.agree_within (fun _ _ => Walk.Alike.enterFrame) (fun _ _ => Walk.Alike.leaveFrame)
      inside).bind
    rintro ⟨_, locals⟩ ⟨_, _⟩ ⟨⟨codes, rfl, rfl⟩, rfl, named⟩
    rcases Identifier.exists_sources named with ⟨sources, rfl⟩
    apply Agree.ofPure
    rw [List.filter_map]
    exact ⟨.lambda fixed rest _ (.sequence codes), rfl, rfl⟩

theorem agree_defineMacro (host : HostsAgree pairing first second)
    (agree : BelowAgree pairing first second below below') (name : String) (function : Datum) :
    Agree (Walk.Alike pairing) Eq (first.defineMacro below name function)
      (second.defineMacro below' name function) := by
  apply (agree_expr agree function).bind
  intro left right same
  rcases same with ⟨code, rfl, rfl⟩
  apply (Emit.agree_ofHost _ (host.evalMacro name code)).bind
  intro expander other same
  subst other
  exact .ofModify fun s t alike => alike.defineMacro name expander

theorem agree_symbolName (form : SpecialForm) (datum : Datum) :
    Agree (Walk.Alike pairing) Eq (symbolName form datum : Emit σ μ String)
      (symbolName form datum : Emit τ μ String) := by
  cases datum with
  | symbol name => exact .ofPure rfl
  | _ => exact .ofThrow _

theorem agree_checkDepth (datum : Datum) :
    Agree (Walk.Alike pairing) Eq (checkDepth datum : Emit σ μ Unit) (checkDepth datum) := by
  unfold checkDepth
  split
  · exact .ofThrow _
  · exact .ofPure rfl

variable (pairing first second) in
abbrev AgreeOnForm (x : Emit σ μ (Option String)) (y : Emit τ μ (Option String)) : Prop :=
  Agree (Walk.Alike pairing) (Option.Rel (Renders first.target second.target)) x y

theorem agree_define (agree : BelowAgree pairing first second below below') (args : List Datum) :
    AgreeOnForm pairing first second (first.special below .define args)
      (second.special below' .define args) := by
  match args with
  | [name, value] =>
    apply (agree_symbolName _ name).bind
    intro name other same
    subst other
    apply (agree_expr agree value).bind
    intro left right same
    rcases same with ⟨code, rfl, rfl⟩
    apply (Agree.ofModify fun s t alike => Walk.Alike.declare alike ⟨name, rfl⟩).bind
    intro _ _ _
    exact .ofPure (.some ⟨.define name code, rfl, rfl⟩)
  | [] | [_] | _ :: _ :: _ :: _ => exact .ofThrow _

theorem agree_send (agree : BelowAgree pairing first second below below') (args : List Datum) :
    AgreeOnForm pairing first second (first.special below .send args)
      (second.special below' .send args) := by
  match args with
  | receiver :: message :: rest =>
    apply (agree_operand agree receiver).bind
    intro left right same
    rcases same with ⟨receiver, rfl, rfl⟩
    apply (agree_exprs agree rest).bind
    intro left right same
    rcases same with ⟨rest, rfl, rfl⟩
    split
    · next method => exact .ofPure (.some ⟨.send receiver method rest, rfl, rfl⟩)
    · apply (agree_expr agree message).bind
      intro left right same
      rcases same with ⟨message, rfl, rfl⟩
      exact .ofPure (.some ⟨.dynamicSend receiver message rest, rfl, rfl⟩)
  | [] | [_] => exact .ofThrow _

theorem agree_conditional (agree : BelowAgree pairing first second below below') (args : List Datum) :
    AgreeOnForm pairing first second (first.special below .conditional args)
      (second.special below' .conditional args) := by
  match args with
  | [predicate, thenArm, elseArm] =>
    apply (agree_expr agree predicate).bind
    intro left right same
    rcases same with ⟨predicate, rfl, rfl⟩
    apply (agree_expr agree thenArm).bind
    intro left right same
    rcases same with ⟨thenArm, rfl, rfl⟩
    apply (agree_expr agree elseArm).bind
    intro left right same
    rcases same with ⟨elseArm, rfl, rfl⟩
    exact .ofPure (.some ⟨.conditional predicate thenArm elseArm, rfl, rfl⟩)
  | [] | [_] | [_, _] | _ :: _ :: _ :: _ :: _ => exact .ofThrow _

theorem agree_guard (agree : BelowAgree pairing first second below below') (args : List Datum) :
    AgreeOnForm pairing first second (first.special below .guard args)
      (second.special below' .guard args) := by
  match args with
  | [node, clause] =>
    simp only [special]
    split
    · exact .ofThrow _
    · next binding handler _ =>
      apply (agree_expr agree node).bind
      intro left right same
      rcases same with ⟨node, rfl, rfl⟩
      apply (agree_expr agree handler).bind
      intro left right same
      rcases same with ⟨handler, rfl, rfl⟩
      exact .ofPure (.some ⟨.guard node binding handler, rfl, rfl⟩)
  | [] | [_] | _ :: _ :: _ :: _ => exact .ofThrow _

theorem agree_quasiquote (agree : BelowAgree pairing first second below below') (args : List Datum) :
    AgreeOnForm pairing first second (first.special below .quasiquote args)
      (second.special below' .quasiquote args) := by
  match args with
  | [template] =>
    apply (agree_checkDepth template).bind
    intro _ _ _
    split
    · next expanded _ => exact agree expanded
    · exact .ofThrow _
  | [] | _ :: _ :: _ => exact .ofThrow _

theorem agree_quote (args : List Datum) :
    AgreeOnForm pairing first second (first.special below .quote args)
      (second.special below' .quote args) := by
  match args with
  | [datum] =>
    apply (agree_checkDepth datum).bind
    intro _ _ _
    exact .ofPure (.some ⟨.literal datum, render_literal _ datum, render_literal _ datum⟩)
  | [] | _ :: _ :: _ => exact .ofThrow _

theorem agree_special (host : HostsAgree pairing first second)
    (agree : BelowAgree pairing first second below below') (form : SpecialForm) (args : List Datum) :
    AgreeOnForm pairing first second (first.special below form args)
      (second.special below' form args) := by
  cases form with
  | apply =>
    match args with
    | [function, list] =>
      apply (agree_operand agree function).bind
      intro left right same
      rcases same with ⟨function, rfl, rfl⟩
      apply (agree_expr agree list).bind
      intro left right same
      rcases same with ⟨list, rfl, rfl⟩
      exact .ofPure (.some ⟨.apply function list, rfl, rfl⟩)
    | [] | [_] | _ :: _ :: _ :: _ => exact .ofThrow _
  | block =>
    match args with
    | [function] =>
      apply (agree_expr agree function).bind
      intro left right same
      rcases same with ⟨function, rfl, rfl⟩
      exact .ofPure (.some ⟨.block function, rfl, rfl⟩)
    | [] | _ :: _ :: _ => exact .ofThrow _
  | define => exact agree_define agree args
  | defineMacro =>
    match args with
    | [name, function] =>
      apply (agree_symbolName _ name).bind
      intro name other same
      subst other
      apply (agree_defineMacro host agree name function).bind
      intro _ _ _
      exact .ofPure .none
    | [] | [_] | _ :: _ :: _ :: _ => exact .ofThrow _
  | sequence =>
    apply (agree_body agree args).bind
    intro left right same
    rcases same with ⟨codes, rfl, rfl⟩
    exact .ofPure (.some ⟨.sequence codes, rfl, rfl⟩)
  | function =>
    match args with
    | params :: nodes =>
      apply (agree_lambda agree params nodes).bind
      intro a b same
      exact .ofPure (.some same)
    | [] => exact .ofThrow _
  | conditional => exact agree_conditional agree args
  | send => exact agree_send agree args
  | quasiquote => exact agree_quasiquote agree args
  | quote => exact agree_quote args
  | guard => exact agree_guard agree args

theorem agree_macroCall (host : HostsAgree pairing first second)
    (agree : BelowAgree pairing first second below below') (name : String) (expander : μ)
    (args : List Datum) :
    AgreeOnForm pairing first second (first.macroCall below name expander args)
      (second.macroCall below' name expander args) := by
  apply Agree.ofGet.bind
  intro s t alike
  rw [alike.expansions]
  split
  · exact .ofThrow _
  · apply (Emit.agree_ofHost _ (host.expand expander args)).bind
    intro expansion other same
    subst other
    exact Emit.agree_within (fun _ _ => Walk.Alike.enterExpansion)
      (fun _ _ => Walk.Alike.leaveExpansion) (agree expansion)

theorem agree_application (agree : BelowAgree pairing first second below below') (head : Datum)
    (args : List Datum) :
    AgreeOnForm pairing first second (first.application below head args)
      (second.application below' head args) := by
  apply (agree_operand agree head).bind
  intro left right same
  rcases same with ⟨function, rfl, rfl⟩
  apply (agree_exprs agree args).bind
  intro left right same
  rcases same with ⟨args, rfl, rfl⟩
  exact .ofPure (.some ⟨.call function args, rfl, rfl⟩)

theorem agree_list (host : HostsAgree pairing first second)
    (agree : BelowAgree pairing first second below below') (items : List Datum) :
    AgreeOnForm pairing first second (first.list below items) (second.list below' items) := by
  cases items with
  | nil => exact .ofThrow _
  | cons head args =>
    apply Agree.ofGet.bind
    intro s t alike
    rw [(pairing.same alike.macros).role_eq]
    cases Role.ofHead t.macros head with
    | special form => exact agree_special host agree form args
    | macroCall name expander => exact agree_macroCall host agree name expander args
    | application => exact agree_application agree head args

theorem agree_step (host : HostsAgree pairing first second)
    (agree : BelowAgree pairing first second below below') (node : Datum) :
    AgreeOnForm pairing first second (first.step below node) (second.step below' node) := by
  cases node with
  | list items =>
    apply Agree.ofGet.bind
    intro s t alike
    rw [alike.nesting]
    split
    · exact .ofThrow _
    · exact Emit.agree_within (fun _ _ => Walk.Alike.enterList) (fun _ _ => Walk.Alike.leaveList)
        (agree_list host agree items)
  | symbol name =>
    simp only [step]
    split
    · next keyword _ => exact .ofPure (.some ⟨.symbol keyword, rfl, rfl⟩)
    · exact .ofPure (.some ⟨.reference name, rfl, rfl⟩)
  | integer value => exact .ofPure (.some ⟨.integer value, rfl, rfl⟩)
  | float value => exact .ofPure (.some ⟨.float value, rfl, rfl⟩)
  | string text => exact .ofPure (.some ⟨.string text, rfl, rfl⟩)
  | bool value => exact .ofPure (.some ⟨.bool value, rfl, rfl⟩)
  | nil => exact .ofPure (.some ⟨.nil, rfl, rfl⟩)

theorem agree_node (host : HostsAgree pairing first second) (levels : Nat) :
    BelowAgree pairing first second (first.node levels) (second.node levels) := by
  induction levels with
  | zero => exact fun _ => .ofThrow _
  | succ levels ih => exact agree_step host ih

theorem agree_compile (host : HostsAgree pairing first second) (form : Datum) :
    Agree (Session.Alike pairing) (Option.Rel (Renders first.target second.target))
      (first.compile form) (second.compile form) := by
  intro s t alike
  have outcome := agree_node host maxLevels form _ _ alike.start
  unfold compile
  generalize first.node maxLevels form (Walk.start s) = left at outcome ⊢
  generalize second.node maxLevels form (Walk.start t) = right at outcome ⊢
  cases outcome with
  | ok value state =>
    refine .ok ?_ state.toAlike
    rw [← state.locals_eq]
    rcases Identifier.exists_sources state.locals_named with ⟨sources, locals⟩
    rw [← locals]
    cases value with
    | none => exact .none
    | some same =>
      rcases same with ⟨code, rfl, rfl⟩
      exact .some ⟨.topLevel sources code, rfl, rfl⟩
  | error state => exact .error state.toAlike

end Compiler

end LispCompiler
