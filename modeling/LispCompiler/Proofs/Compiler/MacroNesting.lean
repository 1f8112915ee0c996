import Mathlib
import LispCompiler.Proofs.Compiler.Balance
import LispCompiler.Proofs.Compiler.Positions
import LispCompiler.Proofs.Compiler.Recursion

namespace LispCompiler

namespace Counters

variable {nesting expansions : Nat}

theorem exists_traced (few : nesting ≤ maxNesting) (shallow : expansions ≤ maxExpansions) :
    ∃ history, Traced history ⟨nesting + expansions, nesting, expansions⟩ := by
  induction nesting with
  | succ nesting ih =>
    have fewer : nesting ≤ maxNesting := Nat.le_of_succ_le few
    rcases ih fewer with ⟨history, before⟩
    have begun := before.change .beginNode (Compiler.bounded_of_le fewer shallow (Nat.le_refl _))
    have entered := begun.change .enterList (Compiler.bounded_of_le few shallow (by omega))
    rw [Nat.add_right_comm]
    exact ⟨_, entered⟩
  | zero =>
    -- each expansion takes the place of a call, which is itself a list
    induction expansions with
    | zero => exact ⟨[], .start⟩
    | succ expansions ih =>
      have fewer : expansions ≤ maxExpansions := Nat.le_of_succ_le shallow
      rcases ih fewer with ⟨history, before⟩
      have begun := before.change .beginNode (Compiler.bounded_of_le few fewer (Nat.le_refl _))
      have entered := begun.change .enterList (Compiler.bounded_of_le (by decide) fewer (by omega))
      have replaced := entered.change .enterExpansion (Compiler.bounded_of_le few shallow (by omega))
      exact ⟨_, replaced⟩

end Counters

theorem SameOutcome.unique {now : Counters} {first second : EStateM.Result CompileError (Walk σ μ) α}
    {watched : EStateM.Result CompileError (Walk (σ × Observer) μ) α}
    (one : SameOutcome (Watched now) Eq first watched) (other : SameOutcome (Watched now) Eq second watched) :
    first = second := by
  cases one with
  | ok value state =>
    cases other with
    | ok same later => rw [value, same, ← state.erased, ← later.erased]
  | error state =>
    cases other with
    | error later => rw [← state.erased, ← later.erased]

namespace Compiler

variable {compiler : Compiler σ μ} {walk : Walk σ μ} {levels : Nat}

/-- Levels that are left over make no difference. -/
theorem node_levels (datum : Datum) (walk : Walk σ μ) (few : walk.nesting ≤ maxNesting)
    (shallow : walk.expansions ≤ maxExpansions)
    (enough : maxLevels ≤ levels + (walk.nesting + walk.expansions)) :
    compiler.node levels datum walk = compiler.node maxLevels datum walk := by
  rcases Counters.exists_traced few shallow with ⟨history, traced⟩
  let observer : Observer := ⟨walk.nesting + walk.expansions, history⟩
  let watched : Walk (σ × Observer) μ := { walk with host := (walk.host, observer) }
  have related : Watched ⟨walk.nesting + walk.expansions, walk.nesting, walk.expansions⟩ walk watched :=
    ⟨rfl, rfl, traced⟩
  have most : maxLevels ≤ maxLevels + (walk.nesting + walk.expansions) := Nat.le_add_right _ _
  exact (watchedAt_node few shallow enough most datum walk watched related).unique
    (watchedAt_node few shallow most most datum walk watched related)

section Calls

variable {name : String} {expander : μ} {args : List Datum} {expansion : Datum} {host : σ}

theorem macroCall_expanded (below : Below σ μ) (shallow : walk.expansions < maxExpansions)
    (expanded : compiler.host.expand expander args walk.host = .ok expansion host) :
    compiler.macroCall below name expander args walk =
      Emit.within Walk.enterExpansion Walk.leaveExpansion (below expansion) { walk with host } := by
  have room : ¬maxExpansions ≤ walk.expansions := Nat.not_le.mpr shallow
  simp [macroCall, Emit.ofHost, bind, EStateM.bind, get, getThe, MonadStateOf.get, EStateM.get, room, expanded]

/-- A macro call is compiled as its expansion would be here, within one more expansion. -/
theorem node_macroCall (room : walk.nesting < maxNesting) (shallow : walk.expansions < maxExpansions)
    (ordinary : SpecialForm.ofName? name = none) (defined : walk.macros.get? name = some expander)
    (expanded : compiler.host.expand expander args walk.host = .ok expansion host) :
    compiler.node maxLevels (.list (.symbol name :: args)) walk =
      Emit.within (fun walk => { walk with expansions := walk.expansions + 1 })
        (fun walk => { walk with expansions := walk.expansions - 1 })
        (compiler.node maxLevels expansion) { walk with host } := by
  change compiler.step (compiler.node (maxNesting + maxExpansions)) _ walk = _
  rw [step_list _ _ room, listPlan_macroCall ordinary defined]
  have inside : compiler.carryOut (compiler.node (maxNesting + maxExpansions)) (.expand name expander args)
      walk.enterList = _ := macroCall_expanded _ shallow expanded
  have replaced : compiler.node (maxNesting + maxExpansions) expansion
      { walk with host, expansions := walk.expansions + 1 } = _ :=
    node_levels expansion { walk with host, expansions := walk.expansions + 1 } (Nat.le_of_lt room)
      shallow (by simp only [maxLevels]; omega)
  simp only [Emit.within, inside]
  simp only [Walk.enterList, Walk.enterExpansion, Nat.add_sub_cancel, replaced]
  cases compiler.node maxLevels expansion { walk with host, expansions := walk.expansions + 1 } with
  | ok code after => rfl
  | error error after => rfl

end Calls

theorem node_list_full (items : List Datum) (full : maxNesting ≤ walk.nesting) :
    compiler.node maxLevels (.list items) walk = .error .nestingTooDeep walk :=
  step_list_full compiler _ full items

/-- Wherever a macro may be called, the call is nested too deep if and only if its expansion in this place
is, or no list may stand here and the expansion is none. -/
theorem macroCall_nestingTooDeep_iff (compiler : Compiler σ μ) (walk : Walk σ μ) (name : String)
    (expander : μ) (args : List Datum) (expansion : Datum) (host : σ) (few : walk.nesting ≤ 256)
    (shallow : walk.expansions < 512) (ordinary : SpecialForm.ofName? name = none)
    (defined : walk.macros.get? name = some expander)
    (expanded : compiler.host.expand expander args walk.host = .ok expansion host) :
    (∃ after, compiler.node maxLevels (.list (.symbol name :: args)) walk =
        .error .nestingTooDeep after) ↔
      (∃ after, compiler.node maxLevels expansion { walk with host, expansions := walk.expansions + 1 } =
        .error .nestingTooDeep after) ∨ walk.nesting = 256 ∧ expansion.items? = none := by
  rcases Nat.lt_or_eq_of_le few with room | full
  · rw [node_macroCall room shallow ordinary defined expanded]
    simp only [Emit.within, Nat.ne_of_lt room, false_and, or_false]
    cases compiler.node maxLevels expansion { walk with host, expansions := walk.expansions + 1 } with
    | ok code after => simp
    | error error after => simp
  · refine iff_of_true ⟨walk, node_list_full _ (Nat.le_of_eq full.symm)⟩ ?_
    cases expansion with
    | list items => exact .inl ⟨_, node_list_full items (Nat.le_of_eq full.symm)⟩
    | _ => exact .inr ⟨full, rfl⟩

def walkBelow (lists : Nat) : Walk Unit Unit :=
  ⟨⟨(), .define .empty "m" ()⟩, [[]], 0, lists⟩

/-- `(m)` stands for `(f (g))` where one more list may stand. -/
theorem macroCall_nestingTooDeep_inside :
    ∃ after, (⟨.ruby, .constant (.list [.symbol "f", .list [.symbol "g"]])⟩ : Compiler Unit Unit).node
      maxLevels (.list [.symbol "m"]) (walkBelow 255) = .error .nestingTooDeep after := by
  have inside : (⟨.ruby, .constant (.list [.symbol "f", .list [.symbol "g"]])⟩ : Compiler Unit Unit).node
      maxLevels (.list [.symbol "f", .list [.symbol "g"]]) { walkBelow 255 with expansions := 1 } =
      .error .nestingTooDeep { walkBelow 255 with expansions := 1 } := by
    rfl
  exact (macroCall_nestingTooDeep_iff _ (walkBelow 255) "m" () [] _ () (by decide) (by decide) rfl rfl rfl).mpr
    (.inl ⟨_, inside⟩)

/-- Where no list may stand, `(m)` is refused, and the number that it stands for is not. -/
theorem macroCall_nestingTooDeep_atom :
    (⟨.ruby, .constant (.integer 7)⟩ : Compiler Unit Unit).node maxLevels (.list [.symbol "m"])
      (walkBelow 256) = .error .nestingTooDeep (walkBelow 256) ∧
    (⟨.ruby, .constant (.integer 7)⟩ : Compiler Unit Unit).node maxLevels (.integer 7)
      { walkBelow 256 with expansions := 1 } = .ok (some "7") { walkBelow 256 with expansions := 1 } := by
  constructor <;> rfl

end Compiler

end LispCompiler
