import Mathlib.Data.List.Chain
import LispCompiler.Proofs.Compiler.Lockstep

/-!
How deep compiling goes into nodes. It is watched: the rules that change a counter are run with an
observer, who writes all counters down after each change. Main statement: the watched run does what
compiling does, no matter how many levels are allowed, no counter ever passes its limit, and none is
taken below zero.
-/

namespace LispCompiler

structure Counters where
  active : Nat
  nesting : Nat
  expansions : Nat
  deriving DecidableEq, Repr

namespace Counters

def zero : Counters :=
  ⟨0, 0, 0⟩

inductive Change : Counters → Counters → Prop
  | beginNode {active nesting expansions : Nat} :
      Change ⟨active, nesting, expansions⟩ ⟨active + 1, nesting, expansions⟩
  | endNode {active nesting expansions : Nat} :
      Change ⟨active + 1, nesting, expansions⟩ ⟨active, nesting, expansions⟩
  | enterList {active nesting expansions : Nat} :
      Change ⟨active, nesting, expansions⟩ ⟨active, nesting + 1, expansions⟩
  | leaveList {active nesting expansions : Nat} :
      Change ⟨active, nesting + 1, expansions⟩ ⟨active, nesting, expansions⟩
  | enterExpansion {active nesting expansions : Nat} :
      Change ⟨active, nesting + 1, expansions⟩ ⟨active, nesting, expansions + 1⟩
  | leaveExpansion {active nesting expansions : Nat} :
      Change ⟨active, nesting, expansions + 1⟩ ⟨active, nesting + 1, expansions⟩

structure Bounded (counters : Counters) : Prop where
  active : counters.active ≤ 769
  nesting : counters.nesting ≤ 256
  expansions : counters.expansions ≤ 512

/-- All counters from zero on that led to the present ones, which none of them passed. -/
inductive Traced : List Counters → Counters → Prop
  | start : Traced [] zero
  | change {history : List Counters} {now next : Counters} (before : Traced history now)
      (changed : Change now next) (bounded : next.Bounded) : Traced (history ++ [next]) next

theorem Traced.bounded {history : List Counters} {now : Counters} (traced : Traced history now) :
    ∀ counters ∈ history, counters.Bounded := by
  induction traced with
  | start => simp
  | change _ _ bounded ih =>
    exact List.forall_mem_append.mpr ⟨ih, List.forall_mem_singleton.mpr bounded⟩

theorem Traced.getLast? {history : List Counters} {now : Counters} (traced : Traced history now) :
    (zero :: history).getLast? = some now := by
  cases traced with
  | start => rfl
  | change before changed bounded => simp [List.getLast?_cons]

theorem Traced.isChain {history : List Counters} {now : Counters} (traced : Traced history now) :
    List.IsChain Change (zero :: history) := by
  induction traced with
  | start => exact .singleton _
  | @change history now next before changed _ ih =>
    rw [← List.cons_append]
    refine ih.append (.singleton _) ?_
    simp only [before.getLast?, Option.mem_def, List.head?_cons, Option.some.injEq]
    rintro _ rfl _ rfl
    exact changed

end Counters

structure Observer where
  active : Nat
  history : List Counters

def Observer.start : Observer :=
  ⟨0, []⟩

namespace Walk

variable (walk : Walk (σ × Observer) μ)

def counters : Counters :=
  ⟨walk.host.2.active, walk.nesting, walk.expansions⟩

def beginNode : Walk (σ × Observer) μ :=
  { walk with host := (walk.host.1, { walk.host.2 with active := walk.host.2.active + 1 }) }

def endNode : Walk (σ × Observer) μ :=
  { walk with host := (walk.host.1, { walk.host.2 with active := walk.host.2.active - 1 }) }

def noted : Walk (σ × Observer) μ :=
  { walk with host :=
      (walk.host.1, { walk.host.2 with history := walk.host.2.history ++ [walk.counters] }) }

end Walk

def Emit.watched (enter leave : Walk (σ × Observer) μ → Walk (σ × Observer) μ)
    (body : Emit (σ × Observer) μ α) : Emit (σ × Observer) μ α :=
  within (fun walk => (enter walk).noted) (fun walk => (leave walk).noted) body

namespace Compiler

section Watching

variable (compiler : Compiler (σ × Observer) μ) (below : Below (σ × Observer) μ)

def watchedMacroCall (name : String) (expander : μ) (args : List Datum) :
    Emit (σ × Observer) μ (Option String) := do
  if maxExpansions ≤ (← get).expansions then
    throw (.expansionTooDeep name)
  else
    let expansion ← Emit.ofHost (.macroExpansion name) (compiler.host.expand expander args)
    Emit.watched Walk.enterExpansion Walk.leaveExpansion (below expansion)

def watchedList : List Datum → Emit (σ × Observer) μ (Option String)
  | [] => throw .emptyApplication
  | head :: args => do
    match Role.ofHead (← get).macros head with
    | .special form => compiler.special below form args
    | .macroCall name expander => compiler.watchedMacroCall below name expander args
    | .application => compiler.application below head args

def watchedStep : Datum → Emit (σ × Observer) μ (Option String)
  | .list items => do
    if maxNesting ≤ (← get).nesting then
      throw .nestingTooDeep
    else
      Emit.watched Walk.enterList Walk.leaveList (compiler.watchedList below items)
  | atom => compiler.step below atom

def watchedNode (compiler : Compiler (σ × Observer) μ) (levels : Nat) : Below (σ × Observer) μ :=
  fun datum => Emit.watched Walk.beginNode Walk.endNode
    (match levels with
      | 0 => throw .nestingTooDeep
      | levels + 1 => compiler.watchedStep (watchedNode compiler levels) datum)

end Watching

def observe (compiler : Compiler σ μ) (levels : Nat) (form : Datum) :
    Run (σ × Observer) μ (Option String) := fun session =>
  match (compiler.annotated fun _ => id).watchedNode levels form (Walk.start session) with
  | .ok code walk => .ok (code.map (compiler.target.topLevel walk.locals)) walk.toSession
  | .error error walk => .error error walk.toSession

end Compiler

section Moves

open Counters

/-- The second walk is watched and the first is not, and the counters stand as they should. -/
def Watched (now : Counters) : Walk σ μ → Walk (σ × Observer) μ → Prop :=
  Walk.Annotates fun observer nesting expansions =>
    (⟨observer.active, nesting, expansions⟩ : Counters) = now ∧ Traced observer.history now

structure Moves (before after : Counters) (plain : Walk σ μ → Walk σ μ)
    (watched : Walk (σ × Observer) μ → Walk (σ × Observer) μ) : Prop where
  erased (walk : Walk (σ × Observer) μ) : (watched walk).erased = plain walk.erased
  history (walk : Walk (σ × Observer) μ) : (watched walk).host.2.history = walk.host.2.history
  counters (walk : Walk (σ × Observer) μ) (shown : walk.counters = before) :
    (watched walk).counters = after
  change : Change before after
  bounded : after.Bounded

variable {before after outer inner : Counters} {active nesting expansions : Nat}

theorem Moves.watched {plain : Walk σ μ → Walk σ μ}
    {watched : Walk (σ × Observer) μ → Walk (σ × Observer) μ} (moves : Moves before after plain watched)
    {s : Walk σ μ} {t : Walk (σ × Observer) μ} (related : Watched before s t) :
    Watched after (plain s) (watched t).noted := by
  rcases related with ⟨rfl, shown, traced⟩
  refine ⟨moves.erased t, moves.counters t shown, ?_⟩
  have written : (watched t).noted.host.2.history = t.host.2.history ++ [after] := by
    rw [← moves.history t, ← moves.counters t shown]
    rfl
  rw [written]
  exact traced.change moves.change moves.bounded

theorem Emit.agree_watched {enter leave : Walk σ μ → Walk σ μ}
    {enter' leave' : Walk (σ × Observer) μ → Walk (σ × Observer) μ} {values : α → β → Prop}
    {body : Emit σ μ α} {body' : Emit (σ × Observer) μ β} (enters : Moves outer inner enter enter')
    (leaves : Moves inner outer leave leave') (inside : Agree (Watched inner) values body body') :
    Agree (Watched outer) values (within enter leave body) (watched enter' leave' body') :=
  agree_within (fun _ _ => enters.watched) (fun _ _ => leaves.watched) inside

theorem Walk.counters_eq_iff {walk : Walk (σ × Observer) μ} :
    walk.counters = ⟨active, nesting, expansions⟩ ↔
      walk.host.2.active = active ∧ walk.nesting = nesting ∧ walk.expansions = expansions := by
  simp [Walk.counters]

theorem moves_of {plain : Walk σ μ → Walk σ μ} {watched : Walk (σ × Observer) μ → Walk (σ × Observer) μ}
    (move : Counters → Counters) (erased : ∀ walk, (watched walk).erased = plain walk.erased)
    (history : ∀ walk, (watched walk).host.2.history = walk.host.2.history)
    (counters : ∀ walk, (watched walk).counters = move walk.counters) (change : Change before (move before))
    (bounded : (move before).Bounded) : Moves before (move before) plain watched where
  erased := erased
  history := history
  counters walk shown := shown ▸ counters walk
  change := change
  bounded := bounded

theorem moves_beginNode (bounded : Bounded ⟨active + 1, nesting, expansions⟩) :
    Moves ⟨active, nesting, expansions⟩ ⟨active + 1, nesting, expansions⟩ (id : Walk σ μ → _)
      Walk.beginNode :=
  moves_of (fun now => { now with active := now.active + 1 }) (fun _ => rfl) (fun _ => rfl) (fun _ => rfl)
    .beginNode bounded

theorem moves_endNode (bounded : Bounded ⟨active, nesting, expansions⟩) :
    Moves ⟨active + 1, nesting, expansions⟩ ⟨active, nesting, expansions⟩ (id : Walk σ μ → _)
      Walk.endNode :=
  moves_of (fun now => { now with active := now.active - 1 }) (fun _ => rfl) (fun _ => rfl) (fun _ => rfl)
    .endNode bounded

theorem moves_enterList (bounded : Bounded ⟨active, nesting + 1, expansions⟩) :
    Moves ⟨active, nesting, expansions⟩ ⟨active, nesting + 1, expansions⟩
      (Walk.enterList : Walk σ μ → _) Walk.enterList :=
  moves_of (fun now => { now with nesting := now.nesting + 1 }) (fun _ => rfl) (fun _ => rfl) (fun _ => rfl)
    .enterList bounded

theorem moves_leaveList (bounded : Bounded ⟨active, nesting, expansions⟩) :
    Moves ⟨active, nesting + 1, expansions⟩ ⟨active, nesting, expansions⟩
      (Walk.leaveList : Walk σ μ → _) Walk.leaveList :=
  moves_of (fun now => { now with nesting := now.nesting - 1 }) (fun _ => rfl) (fun _ => rfl) (fun _ => rfl)
    .leaveList bounded

theorem moves_enterExpansion (bounded : Bounded ⟨active, nesting, expansions + 1⟩) :
    Moves ⟨active, nesting + 1, expansions⟩ ⟨active, nesting, expansions + 1⟩
      (Walk.enterExpansion : Walk σ μ → _) Walk.enterExpansion :=
  moves_of (fun now => ⟨now.active, now.nesting - 1, now.expansions + 1⟩) (fun _ => rfl) (fun _ => rfl)
    (fun _ => rfl) .enterExpansion bounded

theorem moves_leaveExpansion (bounded : Bounded ⟨active, nesting + 1, expansions⟩) :
    Moves ⟨active, nesting, expansions + 1⟩ ⟨active, nesting + 1, expansions⟩
      (Walk.leaveExpansion : Walk σ μ → _) Walk.leaveExpansion :=
  moves_of (fun now => ⟨now.active, now.nesting + 1, now.expansions - 1⟩) (fun _ => rfl) (fun _ => rfl)
    (fun _ => rfl) .leaveExpansion bounded

end Moves

theorem Emit.within_id (body : Emit σ μ α) : within id id body = body := by
  funext walk
  simp only [within, id]
  cases body walk with
  | ok value after => rfl
  | error error after => rfl

namespace Compiler

open Counters

variable {compiler : Compiler σ μ} {nesting expansions levels more : Nat} {below : Below σ μ}
  {below' : Below (σ × Observer) μ}

def WatchedAt (nesting expansions : Nat) (below : Below σ μ) (below' : Below (σ × Observer) μ) : Prop :=
  ∀ node, Agree (Watched ⟨nesting + expansions, nesting, expansions⟩) Eq (below node) (below' node)

def WatchedDeeper (nesting expansions : Nat) (below : Below σ μ) (below' : Below (σ × Observer) μ) :
    Prop :=
  ∀ lists calls, lists ≤ maxNesting → calls ≤ maxExpansions → nesting + expansions < lists + calls →
    WatchedAt lists calls below below'

theorem bounded_of_le {active : Nat} (few : nesting ≤ maxNesting) (shallow : expansions ≤ maxExpansions)
    (least : active ≤ nesting + expansions + 1) : Bounded ⟨active, nesting, expansions⟩ := by
  simp only [maxNesting, maxExpansions] at few shallow
  refine ⟨?_, few, shallow⟩
  change active ≤ 769
  omega

theorem agree_watchedMacroCall (name : String) (expander : μ) (args : List Datum)
    (few : nesting < maxNesting) (shallow : expansions ≤ maxExpansions)
    (deeper : WatchedDeeper nesting expansions below below') :
    Agree (Watched ⟨nesting + expansions + 1, nesting + 1, expansions⟩) Eq
      (compiler.macroCall below name expander args)
      ((compiler.annotated fun _ => id).watchedMacroCall below' name expander args) := by
  apply Agree.ofGet.bind
  intro s t related
  have same : s.expansions = t.expansions := related.erased ▸ rfl
  have shown : t.expansions = expansions := (Walk.counters_eq_iff.mp related.fit.1).2.2
  rw [same, shown]
  split
  · exact .ofThrow _
  · next room =>
    apply (Emit.agree_annotate _ _ fun _ _ _ _ fit => fit).bind
    intro expansion other same
    subst other
    have inside := deeper nesting (expansions + 1) (Nat.le_of_lt few) (by omega) (by omega) expansion
    rw [← Nat.add_assoc] at inside
    exact Emit.agree_watched (moves_enterExpansion (bounded_of_le (Nat.le_of_lt few) (by omega) (by omega)))
      (moves_leaveExpansion (bounded_of_le few shallow (by omega))) inside

theorem agree_watchedList (items : List Datum) (few : nesting < maxNesting)
    (shallow : expansions ≤ maxExpansions) (deeper : WatchedDeeper nesting expansions below below') :
    Agree (Watched ⟨nesting + expansions + 1, nesting + 1, expansions⟩) Eq (compiler.list below items)
      ((compiler.annotated fun _ => id).watchedList below' items) := by
  have inside := deeper (nesting + 1) expansions few shallow (by omega)
  rw [WatchedAt, Nat.add_right_comm] at inside
  cases items with
  | nil => exact .ofThrow _
  | cons head args =>
    apply Agree.ofGet.bind
    intro s t related
    have same : s.macros = t.macros := related.erased ▸ rfl
    rw [same]
    cases Role.ofHead t.macros head with
    | special form => exact compiler.lockstep_annotated.special form args inside
    | macroCall name expander => exact agree_watchedMacroCall name expander args few shallow deeper
    | application => exact compiler.lockstep_annotated.application head args inside

theorem agree_watchedStep (node : Datum) (few : nesting ≤ maxNesting)
    (shallow : expansions ≤ maxExpansions) (deeper : WatchedDeeper nesting expansions below below') :
    Agree (Watched ⟨nesting + expansions + 1, nesting, expansions⟩) Eq (compiler.step below node)
      ((compiler.annotated fun _ => id).watchedStep below' node) := by
  by_cases isAtom : node.items? = none
  · have plain : (compiler.annotated fun _ => id).watchedStep below' node =
        (compiler.annotated fun _ => id).step below' node := by
      cases node with
      | list items => cases isAtom
      | _ => rfl
    rw [plain, step_atom _ _ isAtom, step_atom _ _ isAtom]
    exact .ofPure rfl
  cases node with
  | list items =>
    apply Agree.ofGet.bind
    intro s t related
    have same : s.nesting = t.nesting := related.erased ▸ rfl
    have shown : t.nesting = nesting := (Walk.counters_eq_iff.mp related.fit.1).2.1
    rw [same, shown]
    split
    · exact .ofThrow _
    · next room =>
      have fewer : nesting < maxNesting := Nat.lt_of_not_le room
      exact Emit.agree_watched (moves_enterList (bounded_of_le fewer shallow (by omega)))
        (moves_leaveList (bounded_of_le few shallow (Nat.le_refl _)))
        (agree_watchedList items fewer shallow deeper)
  | _ => exact absurd rfl isAtom

/-- With enough levels left, neither compiling nor watching it ever runs out of them. -/
theorem watchedAt_node (few : nesting ≤ maxNesting) (shallow : expansions ≤ maxExpansions)
    (enough : maxLevels ≤ levels + (nesting + expansions))
    (enoughMore : maxLevels ≤ more + (nesting + expansions)) :
    WatchedAt nesting expansions (compiler.node levels)
      ((compiler.annotated fun _ => id).watchedNode more) := by
  have limit : maxLevels = maxNesting + maxExpansions + 1 := rfl
  induction levels generalizing more nesting expansions with
  | zero => omega
  | succ levels ih =>
    cases more with
    | zero => omega
    | succ more =>
      intro node
      have deeper : WatchedDeeper nesting expansions (compiler.node levels)
          ((compiler.annotated fun _ => id).watchedNode more) := by
        intro lists calls fewLists fewCalls further
        exact ih fewLists fewCalls (by omega) (by omega)
      have inside : Agree (Watched ⟨nesting + expansions + 1, nesting, expansions⟩) Eq
          (compiler.step (compiler.node levels) node) _ := agree_watchedStep node few shallow deeper
      have bracketed := Emit.agree_watched (moves_beginNode (bounded_of_le few shallow (Nat.le_refl _)))
        (moves_endNode (bounded_of_le few shallow (Nat.le_succ _))) inside
      rwa [Emit.within_id] at bracketed

theorem Watched.exists_annotated {walk : Walk σ μ} {watched : Walk (σ × Observer) μ}
    (related : Watched zero walk watched) : ∃ history,
      watched.toSession = walk.toSession.annotated ⟨0, history⟩ ∧ Traced history zero := by
  rcases watched with ⟨⟨⟨host, ⟨active, history⟩⟩, macros⟩, frames, expansions, nesting⟩
  rcases related with ⟨rfl, shown, traced⟩
  have none : active = 0 := congrArg Counters.active shown
  subst none
  exact ⟨history, rfl, traced⟩

/-- Whatever the macros are, the watched run is the run itself, also with levels to spare: compiling
never runs out of its own. The counters change by one, never below zero, and stay within limits. -/
theorem compile_bounded (compiler : Compiler σ μ) (session : Session σ μ) (form : Datum) (spare : Nat) :
    ∃ history, compiler.observe (maxLevels + spare) form (session.annotated .start) =
        annotatedResult ⟨0, history⟩ (compiler.compile form session) ∧
      List.IsChain Change (zero :: history) ∧ ∀ counters ∈ history, counters.Bounded := by
  have watched : WatchedAt 0 0 (compiler.node maxLevels)
      ((compiler.annotated fun _ => id).watchedNode (maxLevels + spare)) :=
    watchedAt_node (Nat.zero_le _) (Nat.zero_le _) (Nat.le_refl _) (Nat.le_add_right _ _)
  have outcome := watched form (Walk.start session) (Walk.start (session.annotated .start))
    ⟨rfl, rfl, .start⟩
  unfold observe compile
  generalize compiler.node maxLevels form (Walk.start session) = left at outcome ⊢
  generalize (compiler.annotated fun _ => id).watchedNode (maxLevels + spare) form
    (Walk.start (session.annotated .start)) = right at outcome ⊢
  cases outcome with
  | @ok code _ walk walk' value state =>
    subst value
    have locals : walk.locals = walk'.locals := state.erased ▸ rfl
    rcases Watched.exists_annotated state with ⟨history, session, traced⟩
    refine ⟨history, ?_, traced.isChain, traced.bounded⟩
    simp only [session, annotatedResult, locals]
  | error state =>
    rcases Watched.exists_annotated state with ⟨history, session, traced⟩
    refine ⟨history, ?_, traced.isChain, traced.bounded⟩
    simp only [session, annotatedResult]

end Compiler

end LispCompiler
