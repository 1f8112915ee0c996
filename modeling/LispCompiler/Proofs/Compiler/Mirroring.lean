import LispCompiler.Proofs.Compiler.Refilling

namespace LispCompiler

structure Walk.Twin (macros : MacroTable μ) (host : σ) (outer inner : Nat) (walk other : Walk σ μ) :
    Prop where
  macros : walk.macros = macros
  outer : walk.nesting = outer
  emptied : other.macros = .empty
  inner : other.nesting = inner
  frames : walk.frames = other.frames
  host : other.host = host

/-- Where the first computation gives a value, `holds` is true and the second gives that value too. -/
def Mirrors (macros : MacroTable μ) (host : σ) (outer inner : Nat) (holds : Prop) (x y : Emit σ μ α) :
    Prop :=
  ∀ walk other, Walk.Twin macros host outer inner walk other → ∀ value after,
    x walk = .ok value after → holds ∧ ∃ last, y other = .ok value last ∧
      Walk.Twin macros host outer inner after last

namespace Mirrors

variable {macros : MacroTable μ} {host : σ} {outer inner : Nat} {holds also whole : Prop}

theorem ofThrow {error : CompileError} {y : Emit σ μ α} :
    Mirrors macros host outer inner holds (throw error) y :=
  nofun

theorem ofPure {value : α} (held : holds) :
    Mirrors macros host outer inner holds (pure value : Emit σ μ α) (pure value) := by
  intro walk other twin found after done
  cases done
  exact ⟨held, other, rfl, twin⟩

theorem imp {x y : Emit σ μ α} (mirrors : Mirrors macros host outer inner holds x y)
    (more : holds → also) : Mirrors macros host outer inner also x y := by
  intro walk other twin value after done
  rcases mirrors walk other twin value after done with ⟨held, last, same, twin⟩
  exact ⟨more held, last, same, twin⟩

theorem bind {x y : Emit σ μ α} {f g : α → Emit σ μ β} (both : holds → also → whole)
    (first : Mirrors macros host outer inner holds x y)
    (next : ∀ value, Mirrors macros host outer inner also (f value) (g value)) :
    Mirrors macros host outer inner whole (x >>= f) (y >>= g) := by
  intro walk other twin value after done
  change EStateM.bind x f walk = _ at done
  change _ ∧ ∃ last, EStateM.bind y g other = _ ∧ _
  unfold EStateM.bind at done ⊢
  cases ran : x walk with
  | error error middle => simp [ran] at done
  | ok found middle =>
    rw [ran] at done
    rcases first walk other twin found middle ran with ⟨held, between, same, twin⟩
    rcases next found middle between twin value after done with ⟨behind, last, equal, twin⟩
    exact ⟨both held behind, last, by rw [same]; exact equal, twin⟩

theorem andThen {x y : Emit σ μ α} {f g : α → Emit σ μ β}
    (first : Mirrors macros host outer inner holds x y)
    (next : ∀ value, Mirrors macros host outer inner True (f value) (g value)) :
    Mirrors macros host outer inner holds (x >>= f) (y >>= g) :=
  bind (fun held _ => held) first next

theorem ofGet {f g : Walk σ μ → Emit σ μ α}
    (next : ∀ walk other, Walk.Twin macros host outer inner walk other →
      Mirrors macros host outer inner holds (f walk) (g other)) :
    Mirrors macros host outer inner holds (get >>= f) (get >>= g) :=
  fun walk other twin => next walk other twin walk other twin

theorem ofModify {f : Walk σ μ → Walk σ μ}
    (keeps : ∀ walk other, Walk.Twin macros host outer inner walk other →
      Walk.Twin macros host outer inner (f walk) (f other)) :
    Mirrors macros host outer inner True (modify f : Emit σ μ PUnit) (modify f) := by
  intro walk other twin value after done
  cases done
  exact ⟨trivial, f other, rfl, keeps walk other twin⟩

theorem within {outer' inner' : Nat} {enter leave : Walk σ μ → Walk σ μ} {x y : Emit σ μ α}
    (enters : ∀ walk other, Walk.Twin macros host outer inner walk other →
      Walk.Twin macros host outer' inner' (enter walk) (enter other))
    (leaves : ∀ walk other, Walk.Twin macros host outer' inner' walk other →
      Walk.Twin macros host outer inner (leave walk) (leave other))
    (inside : Mirrors macros host outer' inner' holds x y) :
    Mirrors macros host outer inner holds (Emit.within enter leave x) (Emit.within enter leave y) := by
  intro walk other twin value after done
  unfold Emit.within at done ⊢
  cases ran : x (enter walk) with
  | error error middle => simp [ran] at done
  | ok found middle =>
    simp only [ran, EStateM.Result.ok.injEq] at done
    rcases done with ⟨rfl, rfl⟩
    rcases inside _ _ (enters walk other twin) found middle ran with ⟨held, last, same, twin⟩
    exact ⟨held, leave last, by rw [same], leaves middle last twin⟩

theorem withinFirst {outer' : Nat} {enter leave : Walk σ μ → Walk σ μ} {x y : Emit σ μ α}
    (enters : ∀ walk other, Walk.Twin macros host outer inner walk other →
      Walk.Twin macros host outer' inner (enter walk) other)
    (leaves : ∀ walk other, Walk.Twin macros host outer' inner walk other →
      Walk.Twin macros host outer inner (leave walk) other)
    (inside : Mirrors macros host outer' inner holds x y) :
    Mirrors macros host outer inner holds (Emit.within enter leave x) y := by
  intro walk other twin value after done
  unfold Emit.within at done
  cases ran : x (enter walk) with
  | error error middle => simp [ran] at done
  | ok found middle =>
    simp only [ran, EStateM.Result.ok.injEq] at done
    rcases done with ⟨rfl, rfl⟩
    rcases inside _ _ (enters walk other twin) found middle ran with ⟨held, last, same, twin⟩
    exact ⟨held, last, same, leaves middle last twin⟩

end Mirrors

namespace Walk.Twin

variable {macros : MacroTable μ} {host : σ} {outer inner : Nat} {walk other : Walk σ μ}

theorem enterFrame (twin : Twin macros host outer inner walk other) :
    Twin macros host outer inner walk.enterFrame other.enterFrame :=
  { twin with frames := congrArg ([] :: ·) twin.frames }

theorem leaveFrame (twin : Twin macros host outer inner walk other) :
    Twin macros host outer inner walk.leaveFrame other.leaveFrame :=
  { twin with frames := congrArg List.tail twin.frames }

theorem locals_eq (twin : Twin macros host outer inner walk other) : walk.locals = other.locals := by
  rw [Walk.locals, twin.frames, Walk.locals]

theorem declare (twin : Twin macros host outer inner walk other) (name : String) :
    Twin macros host outer inner (walk.declare name) (other.declare name) := by
  unfold Walk.declare
  rw [← twin.frames]
  cases own : walk.frames with
  | nil => exact twin
  | cons frame frames => exact { twin with frames := rfl }

theorem enterList (twin : Twin macros host outer inner walk other) :
    Twin macros host (outer + 1) inner walk.enterList other :=
  { twin with outer := congrArg (· + 1) twin.outer }

theorem leaveList (twin : Twin macros host (outer + 1) inner walk other) :
    Twin macros host outer inner walk.leaveList other :=
  { twin with outer := congrArg (· - 1) twin.outer }

theorem enterLists (twin : Twin macros host outer inner walk other) :
    Twin macros host (outer + 1) (inner + 1) walk.enterList other.enterList :=
  { twin with outer := congrArg (· + 1) twin.outer, inner := congrArg (· + 1) twin.inner }

theorem leaveLists (twin : Twin macros host (outer + 1) (inner + 1) walk other) :
    Twin macros host outer inner walk.leaveList other.leaveList :=
  { twin with outer := congrArg (· - 1) twin.outer, inner := congrArg (· - 1) twin.inner }

theorem enterExpansion (twin : Twin macros host (outer + 1) inner walk other) :
    Twin macros host outer inner walk.enterExpansion other :=
  { twin with outer := congrArg (· - 1) twin.outer }

theorem leaveExpansion (twin : Twin macros host outer inner walk other) :
    Twin macros host (outer + 1) inner walk.leaveExpansion other :=
  { twin with outer := congrArg (· + 1) twin.outer }

end Walk.Twin

namespace Compiler

variable {compiler : Compiler σ μ} {macros : MacroTable μ} {host : σ} {outer inner : Nat}
  {below below' : Below σ μ} {holds : Datum → Prop} {f : Datum → Datum}

theorem mirrors_expr {node other : Datum}
    (inside : Mirrors macros host outer inner (holds node) (below node) (below' other)) :
    Mirrors macros host outer inner (holds node) (compiler.expr below node)
      (compiler.expr below' other) :=
  inside.andThen fun _ => .ofPure trivial

theorem mirrors_operand {node other : Datum}
    (inside : Mirrors macros host outer inner (holds node) (below node) (below' other))
    (tight : isTight macros node = isTight (.empty : MacroTable μ) other) :
    Mirrors macros host outer inner (holds node) (compiler.operand below node)
      (compiler.operand below' other) := by
  apply (mirrors_expr inside).andThen
  intro code
  apply Mirrors.ofGet
  intro walk walk' twin
  rw [twin.macros, twin.emptied, tight]
  exact .ofPure trivial

theorem mirrors_emitOperand {use : Use} {node other : Datum}
    (inside : Mirrors macros host outer inner (holds node) (below node) (below' other))
    (tight : use = .callee → isTight macros node = isTight (.empty : MacroTable μ) other) :
    Mirrors macros host outer inner (holds node) (compiler.emitOperand below use node)
      (compiler.emitOperand below' use other) := by
  cases use with
  | value => exact (mirrors_expr inside).andThen fun _ => .ofPure trivial
  | callee => exact (mirrors_operand inside (tight rfl)).andThen fun _ => .ofPure trivial
  | statement => exact inside.andThen fun _ => .ofPure trivial

theorem mirrors_emitOperands {operands : List (Use × Datum)}
    (inside : ∀ node ∈ operands.map Prod.snd,
      Mirrors macros host outer inner (holds node) (below node) (below' (f node)))
    (tight : ∀ node, (.callee, node) ∈ operands →
      isTight macros node = isTight (.empty : MacroTable μ) (f node)) :
    Mirrors macros host outer inner (∀ node ∈ operands.map Prod.snd, holds node)
      (compiler.emitOperands below operands)
      (compiler.emitOperands below' (operands.map fun (use, node) => (use, f node))) := by
  induction operands with
  | nil => exact .ofPure (by simp)
  | cons operand operands ih =>
    rcases operand with ⟨use, node⟩
    rw [List.map_cons, List.forall_mem_cons] at inside
    have first : Mirrors macros host outer inner (holds node) (compiler.emitOperand below use node)
        (compiler.emitOperand below' use (f node)) := by
      refine mirrors_emitOperand inside.1 ?_
      rintro rfl
      exact tight node List.mem_cons_self
    have others := ih inside.2 fun node callee => tight node (List.mem_cons_of_mem _ callee)
    apply Mirrors.bind (fun held behind => List.forall_mem_cons.mpr ⟨held, behind⟩) first
    intro fragments
    exact others.andThen fun _ => .ofPure trivial

theorem mirrors_emitConstruct {construct : Construct}
    (inside : ∀ node ∈ construct.nodes,
      Mirrors macros host outer inner (holds node) (below node) (below' (f node)))
    (tight : ∀ node, (.callee, node) ∈ construct.operands →
      isTight macros node = isTight (.empty : MacroTable μ) (f node)) :
    Mirrors macros host outer inner (∀ node ∈ construct.nodes, holds node)
      (compiler.emitConstruct below construct) (compiler.emitConstruct below' (construct.map f)) := by
  have operands : Mirrors macros host outer inner (∀ node ∈ construct.nodes, holds node)
      (compiler.emitOperands below construct.operands)
      (compiler.emitOperands below' (construct.map f).operands) := mirrors_emitOperands inside tight
  have scope : (construct.map f).scope = construct.scope := rfl
  have finish : (construct.map f).finish = construct.finish := rfl
  unfold emitConstruct
  rw [scope, finish]
  split
  · exact operands.andThen fun _ => .ofPure trivial
  · have framed : Mirrors macros host outer inner (∀ node ∈ construct.nodes, holds node)
        (do return (← compiler.emitOperands below construct.operands, (← get).locals))
        (do return (← compiler.emitOperands below' (construct.map f).operands, (← get).locals)) := by
      apply operands.andThen
      intro fragments
      apply Mirrors.ofGet
      intro walk other twin
      rw [twin.locals_eq]
      exact .ofPure trivial
    apply (framed.within (fun _ _ => Walk.Twin.enterFrame) (fun _ _ => Walk.Twin.leaveFrame)).andThen
    exact fun _ => .ofPure trivial
  · next name _ =>
    apply operands.andThen
    intro fragments
    exact (Mirrors.ofModify fun _ _ twin => twin.declare name).andThen fun _ => .ofPure trivial

end Compiler

end LispCompiler
