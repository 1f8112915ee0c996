import LispCompiler.Proofs.Compiler.Plan
import LispCompiler.Proofs.Outcomes

/-!
What compiling a node does to the walk. Main statement: it takes one session to another and adds names
to the innermost frame, and neither depends on the names that are bound already. The other frames and
the counters are as before, also where it fails.
-/

namespace LispCompiler

section Names

def addNames (frame names : List String) : List String :=
  frame ++ (names.removeAll frame).eraseDups

variable {frame names others : List String} {name : String}

theorem addNames_nil : addNames frame [] = frame := by
  simp [addNames, List.removeAll]

theorem nil_addNames : addNames [] names = names.eraseDups := by
  have all : names.removeAll [] = names := List.filter_eq_self.mpr (by simp)
  rw [addNames, all, List.nil_append]

theorem addNames_singleton :
    addNames frame [name] = if frame.contains name then frame else frame ++ [name] := by
  by_cases known : name ∈ frame
  · simp [addNames, List.removeAll, known]
  · simp [addNames, List.removeAll, known, List.eraseDups_cons]

theorem addNames_append : addNames frame (names ++ others) = addNames (addNames frame names) others := by
  have rest : (others.removeAll frame).removeAll (names.removeAll frame) =
      others.removeAll (addNames frame names) := by
    simp only [List.removeAll, List.filter_filter]
    apply List.filter_congr
    intro name _
    by_cases known : name ∈ frame
    · simp [known, addNames]
    · simp [known, addNames, List.removeAll, List.mem_eraseDups]
  calc addNames frame (names ++ others)
      = frame ++ ((names.removeAll frame).eraseDups ++
          ((others.removeAll frame).removeAll (names.removeAll frame)).eraseDups) := by
        rw [addNames, List.removeAll, List.filter_append, List.eraseDups_append]
        rfl
    _ = addNames frame names ++ (others.removeAll (addNames frame names)).eraseDups := by
        rw [rest, addNames, List.append_assoc]

theorem nodup_eraseDups (names : List String) : names.eraseDups.Nodup := by
  match names with
  | [] => exact List.nodup_nil
  | name :: names =>
    rw [List.eraseDups_cons, List.nodup_cons]
    constructor
    · simp
    · exact nodup_eraseDups (names.filter fun other => !other == name)
termination_by names.length
decreasing_by exact Nat.lt_succ_of_le (List.length_filter_le _ _)

theorem filter_eraseDups (p : String → Bool) (names : List String) :
    names.eraseDups.filter p = (names.filter p).eraseDups := by
  match names with
  | [] => rfl
  | name :: names =>
    have others := filter_eraseDups p (names.filter fun other => !other == name)
    rw [List.filter_filter] at others
    rw [List.eraseDups_cons]
    by_cases kept : p name
    · rw [List.filter_cons_of_pos kept, List.filter_cons_of_pos kept, List.eraseDups_cons, others,
        List.filter_filter]
      simp only [Bool.and_comm]
    · have absent : names.filter (fun other => p other && !other == name) = names.filter p := by
        apply List.filter_congr
        intro other _
        by_cases same : other = name
        · simp [same, kept]
        · simp [same]
      rw [List.filter_cons_of_neg kept, List.filter_cons_of_neg kept, others, absent]
termination_by names.length
decreasing_by exact Nat.lt_succ_of_le (List.length_filter_le _ _)

/-- What is added is new, and comes up only once. -/
theorem exists_added (frame names : List String) :
    ∃ added, addNames frame names = frame ++ added ∧ added.Nodup ∧ ∀ name ∈ added, name ∉ frame := by
  refine ⟨(names.removeAll frame).eraseDups, rfl, nodup_eraseDups _, ?_⟩
  intro name member
  have kept := List.mem_filter.mp (List.mem_eraseDups.mp member)
  simpa using kept.2

theorem addNames_eq : addNames frame names = frame ++ names.eraseDups.removeAll frame := by
  rw [addNames, List.removeAll, List.removeAll, filter_eraseDups]

end Names

section Walks

def walked (frames : List (List String)) (expansions nesting : Nat) :
    EStateM.Result ε (Session σ μ) α → EStateM.Result ε (Walk σ μ) α
  | .ok value session => .ok value ⟨session, frames, expansions, nesting⟩
  | .error error session => .error error ⟨session, frames, expansions, nesting⟩

def beside (other : β) : EStateM.Result ε σ α → EStateM.Result ε σ (α × β)
  | .ok value state => .ok (value, other) state
  | .error error state => .error error state

namespace Emit

/-- Below so many expansions and lists, and whatever names are bound, `x` takes the session to the
result and adds the names to the innermost frame. -/
def Binds (expansions nesting : Nat) (x : Emit σ μ α) (session : Session σ μ) (names : List String)
    (result : EStateM.Result CompileError (Session σ μ) α) : Prop :=
  ∀ frame outer, x ⟨session, frame :: outer, expansions, nesting⟩ =
    walked (addNames frame names :: outer) expansions nesting result

namespace Binds

variable {expansions nesting : Nat} {x : Emit σ μ α} {f : α → Emit σ μ β} {session middle : Session σ μ}
  {names others : List String} {value : α} {error : CompileError}
  {result : EStateM.Result CompileError (Session σ μ) α}
  {last : EStateM.Result CompileError (Session σ μ) β}

theorem ofPure (value : α) : Binds expansions nesting (pure value) session [] (.ok value session) := by
  intro frame outer
  rw [addNames_nil]
  rfl

theorem ofThrow (error : CompileError) :
    Binds expansions nesting (throw error : Emit σ μ α) session [] (.error error session) := by
  intro frame outer
  rw [addNames_nil]
  rfl

theorem ofGet {f : Walk σ μ → Emit σ μ α}
    (same : ∀ frames, f ⟨session, frames, expansions, nesting⟩ = x)
    (next : Binds expansions nesting x session names result) :
    Binds expansions nesting (get >>= f) session names result := by
  intro frame outer
  change f ⟨session, frame :: outer, expansions, nesting⟩ _ = _
  rw [same, next]

theorem ofDeclare (name : String) :
    Binds expansions nesting (modify (Walk.declare name)) session [name] (.ok () session) := by
  intro frame outer
  rw [addNames_singleton]
  rfl

theorem ofHost_ok {wrap : HostError → CompileError} {action : EStateM HostError σ α} {host : σ}
    (answered : action session.host = .ok value host) :
    Binds expansions nesting (ofHost wrap action) session [] (.ok value { session with host }) := by
  intro frame outer
  simp only [Emit.ofHost, answered, addNames_nil, walked]

theorem ofHost_error {wrap : HostError → CompileError} {action : EStateM HostError σ α} {host : σ}
    {failure : HostError} (answered : action session.host = .error failure host) :
    Binds expansions nesting (ofHost wrap action) session []
      (.error (wrap failure) { session with host }) := by
  intro frame outer
  simp only [Emit.ofHost, answered, addNames_nil, walked]

theorem ofDefine (name : String) (expander : μ) :
    Binds expansions nesting
      (modify fun walk => { walk with macros := walk.macros.define name expander }) session []
      (.ok () { session with macros := session.macros.define name expander }) := by
  intro frame outer
  rw [addNames_nil]
  rfl

theorem bind (first : Binds expansions nesting x session names (.ok value middle))
    (next : Binds expansions nesting (f value) middle others last) :
    Binds expansions nesting (x >>= f) session (names ++ others) last := by
  intro frame outer
  change EStateM.bind x f _ = _
  rw [EStateM.bind, first frame outer, addNames_append]
  exact next (addNames frame names) outer

theorem bind_error (failed : Binds expansions nesting x session names (.error error middle)) :
    Binds expansions nesting (x >>= f) session names (.error error middle) := by
  intro frame outer
  change EStateM.bind x f _ = _
  rw [EStateM.bind, failed frame outer]
  rfl

theorem andThen (first : Binds expansions nesting x session names (.ok value middle)) (g : α → β) :
    Binds expansions nesting (x >>= fun value => pure (g value)) session names
      (.ok (g value) middle) := by
  have last : Binds expansions nesting (pure (g value)) middle [] (.ok (g value) middle) := .ofPure _
  rw [← List.append_nil names]
  exact first.bind last

theorem withinList (inside : Binds expansions (nesting + 1) x session names result) :
    Binds expansions nesting (within Walk.enterList Walk.leaveList x) session names result := by
  intro frame outer
  have entered : Walk.enterList ⟨session, frame :: outer, expansions, nesting⟩ =
      ⟨session, frame :: outer, expansions, nesting + 1⟩ := rfl
  rw [within, entered, inside frame outer]
  cases result with
  | ok value after => rfl
  | error error after => rfl

/-- An expansion takes the place of a list. -/
theorem withinExpansion (inside : Binds (expansions + 1) nesting x session names result) :
    Binds expansions (nesting + 1) (within Walk.enterExpansion Walk.leaveExpansion x) session names
      result := by
  intro frame outer
  have entered : Walk.enterExpansion ⟨session, frame :: outer, expansions, nesting + 1⟩ =
      ⟨session, frame :: outer, expansions + 1, nesting⟩ := rfl
  rw [within, entered, inside frame outer]
  cases result with
  | ok value after => rfl
  | error error after => rfl

/-- A function takes the names of its body, and binds none around it. -/
theorem withinFrame (inside : Binds expansions nesting x session names result) :
    Binds expansions nesting
      (within Walk.enterFrame Walk.leaveFrame do return (← x, (← get).locals)) session []
      (beside names.eraseDups result) := by
  intro frame outer
  have body : (do return (← x, (← get).locals) : Emit σ μ (α × List String))
      ⟨session, [] :: frame :: outer, expansions, nesting⟩ =
      walked (names.eraseDups :: frame :: outer) expansions nesting (beside names.eraseDups result) := by
    change EStateM.bind x _ _ = _
    rw [EStateM.bind, inside [] (frame :: outer), nil_addNames]
    cases result with
    | ok value after => rfl
    | error error after => rfl
  have entered : Walk.enterFrame ⟨session, frame :: outer, expansions, nesting⟩ =
      ⟨session, [] :: frame :: outer, expansions, nesting⟩ := rfl
  rw [within, entered, body, addNames_nil]
  cases result with
  | ok value after => rfl
  | error error after => rfl

end Binds

def Transparent (expansions nesting : Nat) (x : Emit σ μ α) : Prop :=
  ∀ session, ∃ names result, Binds expansions nesting x session names result

namespace Transparent

variable {expansions nesting : Nat} {x : Emit σ μ α} {f : α → Emit σ μ β}

theorem ofPure (value : α) : Transparent expansions nesting (pure value : Emit σ μ α) :=
  fun _ => ⟨_, _, .ofPure value⟩

theorem ofThrow (error : CompileError) : Transparent expansions nesting (throw error : Emit σ μ α) :=
  fun _ => ⟨_, _, .ofThrow error⟩

theorem ofGet {f : Walk σ μ → Emit σ μ α}
    (same : ∀ session frames, f ⟨session, frames, expansions, nesting⟩ =
      f ⟨session, [], expansions, nesting⟩)
    (next : ∀ session, Transparent expansions nesting (f ⟨session, [], expansions, nesting⟩)) :
    Transparent expansions nesting (get >>= f) := by
  intro session
  rcases next session session with ⟨names, result, binds⟩
  exact ⟨names, result, .ofGet (same session) binds⟩

theorem bind (first : Transparent expansions nesting x)
    (next : ∀ value, Transparent expansions nesting (f value)) :
    Transparent expansions nesting (x >>= f) := by
  intro session
  rcases first session with ⟨names, result, binds⟩
  cases result with
  | error error after => exact ⟨_, _, binds.bind_error⟩
  | ok value middle =>
    rcases next value middle with ⟨others, last, binds'⟩
    exact ⟨_, _, binds.bind binds'⟩

theorem withinFrame (inside : Transparent expansions nesting x) :
    Transparent expansions nesting
      (within Walk.enterFrame Walk.leaveFrame do return (← x, (← get).locals)) := by
  intro session
  rcases inside session with ⟨names, result, binds⟩
  exact ⟨_, _, binds.withinFrame⟩

theorem ofHost (wrap : HostError → CompileError) (action : EStateM HostError σ α) :
    Transparent expansions nesting (ofHost wrap action : Emit σ μ α) := by
  intro session
  cases answered : action session.host with
  | ok value host => exact ⟨_, _, .ofHost_ok answered⟩
  | error error host => exact ⟨_, _, .ofHost_error answered⟩

end Transparent

end Emit

end Walks

namespace Compiler

open Emit (Transparent)

variable {compiler : Compiler σ μ} {below : Below σ μ} {expansions nesting : Nat}

theorem transparent_expr {node : Datum} (inside : Transparent expansions nesting (below node)) :
    Transparent expansions nesting (compiler.expr below node) :=
  inside.bind fun _ => .ofPure _

theorem transparent_operand {node : Datum} (inside : Transparent expansions nesting (below node)) :
    Transparent expansions nesting (compiler.operand below node) :=
  (transparent_expr inside).bind fun _ => .ofGet (fun _ _ => rfl) fun _ => .ofPure _

theorem transparent_emitOperand (use : Use) {node : Datum}
    (inside : Transparent expansions nesting (below node)) :
    Transparent expansions nesting (compiler.emitOperand below use node) := by
  cases use with
  | value => exact (transparent_expr inside).bind fun _ => .ofPure _
  | callee => exact (transparent_operand inside).bind fun _ => .ofPure _
  | statement => exact inside.bind fun _ => .ofPure _

theorem transparent_emitOperands (operands : List (Use × Datum))
    (inside : ∀ node, Transparent expansions nesting (below node)) :
    Transparent expansions nesting (compiler.emitOperands below operands) := by
  induction operands with
  | nil => exact .ofPure _
  | cons operand operands ih =>
    exact (transparent_emitOperand operand.1 (inside operand.2)).bind fun _ => ih.bind fun _ => .ofPure _

theorem transparent_emitConstruct (construct : Construct)
    (inside : ∀ node, Transparent expansions nesting (below node)) :
    Transparent expansions nesting (compiler.emitConstruct below construct) := by
  have operands : Transparent expansions nesting (compiler.emitOperands below construct.operands) :=
    transparent_emitOperands _ inside
  unfold emitConstruct
  split
  · exact operands.bind fun _ => .ofPure _
  · exact operands.withinFrame.bind fun _ => .ofPure _
  · next name _ =>
    have declared : Transparent expansions nesting (modify (Walk.declare name) : Emit σ μ Unit) :=
      fun _ => ⟨_, _, .ofDeclare name⟩
    exact operands.bind fun _ => declared.bind fun _ => .ofPure _

theorem transparent_defineMacro (name : String) {function : Datum}
    (inside : Transparent expansions nesting (below function)) :
    Transparent expansions nesting (compiler.defineMacro below name function) := by
  exact (transparent_expr inside).bind fun _ => (Transparent.ofHost _ _).bind fun expander =>
    fun _ => ⟨_, _, .ofDefine name expander⟩

theorem transparent_macroCall (name : String) (expander : μ) (args : List Datum)
    (inside : ∀ node, Transparent (expansions + 1) nesting (below node)) :
    Transparent expansions (nesting + 1) (compiler.macroCall below name expander args) := by
  refine .ofGet (fun _ _ => rfl) fun session => ?_
  split
  · exact .ofThrow _
  · refine (Transparent.ofHost _ _).bind fun expansion => ?_
    intro session
    rcases inside expansion session with ⟨names, result, binds⟩
    exact ⟨_, _, binds.withinExpansion⟩

theorem transparent_carryOut (plan : Plan μ)
    (inside : ∀ expansions nesting node, Transparent expansions nesting (below node)) :
    Transparent expansions (nesting + 1) (compiler.carryOut below plan) := by
  cases plan with
  | refuse error => exact .ofThrow error
  | become node => exact inside _ _ node
  | defineMacro name function =>
    exact (transparent_defineMacro name (inside _ _ function)).bind fun _ => .ofPure _
  | expand name expander args => exact transparent_macroCall name expander args (inside _ _)
  | construct construct => exact transparent_emitConstruct construct (inside _ _)

theorem binds_list {items : List Datum} {session : Session σ μ} {names : List String}
    {result : EStateM.Result CompileError (Session σ μ) (Option String)} (room : nesting < maxNesting)
    (inside : Emit.Binds expansions (nesting + 1)
      (compiler.carryOut below (listPlan compiler.target session.macros items)) session names result) :
    Emit.Binds expansions nesting (compiler.step below (.list items)) session names result := by
  intro frame outer
  have planned := @step_list σ μ compiler below ⟨session, frame :: outer, expansions, nesting⟩ room items
  exact planned.trans (inside.withinList frame outer)

theorem transparent_step (node : Datum)
    (inside : ∀ expansions nesting node, Transparent expansions nesting (below node)) :
    Transparent expansions nesting (compiler.step below node) := by
  by_cases isAtom : node.items? = none
  · rw [step_atom _ _ isAtom]
    exact .ofPure _
  cases node with
  | list items =>
    intro session
    rcases Nat.lt_or_ge nesting maxNesting with room | full
    · have planned : Transparent expansions (nesting + 1)
          (compiler.carryOut below (listPlan compiler.target session.macros items)) :=
        transparent_carryOut _ inside
      rcases planned session with ⟨names, result, binds⟩
      exact ⟨names, result, binds_list room binds⟩
    · refine ⟨[], .error .nestingTooDeep session, ?_⟩
      intro frame outer
      rw [addNames_nil]
      exact @step_list_full σ μ compiler below ⟨session, frame :: outer, expansions, nesting⟩ full items
  | _ => exact absurd rfl isAtom

/-- Nothing about a node depends on the names that are bound around it. -/
theorem transparent_node (levels expansions nesting : Nat) (node : Datum) :
    Transparent expansions nesting (compiler.node levels node) := by
  induction levels generalizing expansions nesting node with
  | zero => exact .ofThrow _
  | succ levels ih => exact transparent_step node ih

section Forms

variable {form : Datum} {session after : Session σ μ} {names : List String}

/-- What a whole form binds is declared in front of its code. -/
theorem compile_of_binds {code : Option String}
    (binds : Emit.Binds 0 0 (compiler.node maxLevels form) session names (.ok code after)) :
    compiler.compile form session =
      .ok (code.map (compiler.target.topLevel names.eraseDups)) after := by
  have walk : compiler.node maxLevels form (Walk.start session) = _ := binds [] []
  rw [compile, walk, nil_addNames]
  rfl

theorem compile_of_binds_error {error : CompileError}
    (binds : Emit.Binds 0 0 (compiler.node maxLevels form) session names (.error error after)) :
    compiler.compile form session = .error error after := by
  have walk : compiler.node maxLevels form (Walk.start session) = _ := binds [] []
  rw [compile, walk]
  rfl

end Forms

section Books

theorem left_walked (frames : List (List String)) (expansions nesting : Nat)
    (result : EStateM.Result ε (Session σ μ) α) :
    left (walked frames expansions nesting result) = ⟨left result, frames, expansions, nesting⟩ := by
  cases result <;> rfl

/-- Whether a node is compiled or fails, and however deep inside functions, macro calls, templates and
macro definitions it fails, the counters, the number of frames and the frames around the innermost one
are as before. The innermost frame has only new names behind those it had, and no name twice if it had
none twice. -/
theorem node_balanced (compiler : Compiler σ μ) (levels : Nat) (node : Datum) (walk : Walk σ μ)
    (framed : walk.frames ≠ []) :
    let after := left (compiler.node levels node walk)
    after.expansions = walk.expansions ∧ after.nesting = walk.nesting ∧
      after.frames.length = walk.frames.length ∧ after.frames.tail = walk.frames.tail ∧
      (∃ added, after.locals = walk.locals ++ added ∧ added.Nodup ∧ ∀ name ∈ added, name ∉ walk.locals) ∧
      (walk.locals.Nodup → after.locals.Nodup) := by
  intro after
  rcases walk with ⟨session, frames, expansions, nesting⟩
  obtain ⟨frame, outer, rfl⟩ := List.exists_cons_of_ne_nil framed
  obtain ⟨names, result, binds⟩ := @transparent_node σ μ compiler levels expansions nesting node session
  have left_eq : after = ⟨left result, addNames frame names :: outer, expansions, nesting⟩ :=
    (congrArg left (binds frame outer)).trans (left_walked _ _ _ _)
  obtain ⟨added, extended, single, fresh⟩ := exists_added frame names
  rw [left_eq]
  refine ⟨rfl, rfl, rfl, rfl, ⟨added, extended, single, fresh⟩, ?_⟩
  intro nodup
  change (addNames frame names).Nodup
  rw [extended, List.nodup_append]
  refine ⟨nodup, single, ?_⟩
  intro name known other new same
  exact fresh other new (same ▸ known)

def failingInside : Compiler Unit Unit where
  target := .javascript
  host := ⟨fun _ _ => pure (), fun _ _ => pure (.list [.symbol "fn", .list [], .list []]), fun _ => pure ()⟩

/-- A failure in a function, in the expansion of a macro call, in another function, in an operand. -/
theorem node_balanced_failingInside :
    let definition (name : String) : Datum := .list [.symbol "def", .symbol name, .nil]
    let node : Datum := .list [.symbol "do", definition "b", definition "a", definition "c",
      .list [.symbol "f", .list [.symbol "fn", .list [], definition "d", .list [.symbol "m"]]],
      definition "e"]
    let walk : Walk Unit Unit := ⟨⟨(), MacroTable.empty.define "m" ()⟩, [["a"], ["z", "y"]], 3, 5⟩
    let result := failingInside.node maxLevels node walk
    outcome result = .error .emptyApplication ∧ (left result).expansions = 3 ∧ (left result).nesting = 5 ∧
      (left result).frames = [["a", "b", "c"], ["z", "y"]] ∧ (left result).locals.Nodup := by
  intro definition node walk result
  have balanced := node_balanced failingInside maxLevels node walk (List.cons_ne_nil _ _)
  exact ⟨rfl, balanced.1, balanced.2.1, rfl, balanced.2.2.2.2.2 (by decide)⟩

end Books

end Compiler

end LispCompiler
