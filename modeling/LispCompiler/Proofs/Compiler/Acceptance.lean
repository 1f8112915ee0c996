import Mathlib
import LispCompiler.Proofs.Compiler.Nesting
import LispCompiler.Proofs.Datum.Reading

namespace LispCompiler

inductive WellFormed : Datum → Prop
  | atom {node : Datum} (single : node.items? = none) : WellFormed node
  | special {form : SpecialForm} {args parts : List Datum} (fits : form.compiled? args = some parts)
      (all : ∀ part ∈ parts, WellFormed part) : WellFormed (.list (.symbol form.name :: args))
  | application {head : Datum} {args : List Datum}
      (ordinary : ∀ form : SpecialForm, head ≠ .symbol form.name)
      (all : ∀ item ∈ head :: args, WellFormed item) : WellFormed (.list (head :: args))

namespace WellFormed

theorem special_iff {form : SpecialForm} {args : List Datum} :
    WellFormed (.list (.symbol form.name :: args)) ↔
      ∃ parts, form.compiled? args = some parts ∧ ∀ part ∈ parts, WellFormed part := by
  constructor
  · generalize whole : Datum.list (.symbol form.name :: args) = node
    intro wellFormed
    cases wellFormed with
    | atom single =>
      subst whole
      cases single
    | @special other _ parts fits all =>
      simp only [Datum.list.injEq, List.cons.injEq, Datum.symbol.injEq] at whole
      rcases whole with ⟨named, rfl⟩
      have same : some form = some other := by
        rw [← SpecialForm.ofName?_name form, named, SpecialForm.ofName?_name]
      cases same
      exact ⟨parts, fits, all⟩
    | application ordinary all =>
      cases whole
      exact absurd rfl (ordinary form)
  · intro held
    rcases held with ⟨parts, fits, all⟩
    exact .special fits all

theorem application_iff {head : Datum} {args : List Datum}
    (ordinary : ∀ form : SpecialForm, head ≠ .symbol form.name) :
    WellFormed (.list (head :: args)) ↔ ∀ item ∈ head :: args, WellFormed item := by
  constructor
  · intro wellFormed
    cases wellFormed with
    | atom single => cases single
    | special fits all => exact absurd rfl (ordinary _)
    | application _ all => exact all
  · exact .application ordinary

theorem not_nil : ¬WellFormed (.list []) := by
  intro wellFormed
  cases wellFormed with
  | atom single => cases single

end WellFormed

structure Walk.Plain (level : Nat) (walk : Walk σ μ) : Prop where
  macros : walk.macros = .empty
  nesting : walk.nesting = level

/-- A value with the property `fits` if `accepted` holds, and else an error, which is about nesting
only if `deep` holds. -/
inductive Decided (level : Nat) (accepted deep : Prop) (fits : α → Prop) :
    EStateM.Result CompileError (Walk σ μ) α → Prop
  | ok {value : α} {walk : Walk σ μ} (held : accepted) (fit : fits value) (plain : walk.Plain level) :
      Decided level accepted deep fits (.ok value walk)
  | error {error : CompileError} {walk : Walk σ μ} (failed : ¬accepted)
      (nested : error = .nestingTooDeep → deep) : Decided level accepted deep fits (.error error walk)

def Decides (level : Nat) (accepted deep : Prop) (fits : α → Prop) (x : Emit σ μ α) : Prop :=
  ∀ walk, Walk.Plain level walk → Decided level accepted deep fits (x walk)

namespace Decides

variable {level inner : Nat} {accepted also whole deep : Prop} {fits : α → Prop} {suits : β → Prop}

theorem ofPure {value : α} (held : accepted) (fit : fits value) :
    Decides level accepted deep fits (pure value : Emit σ μ α) :=
  fun _ plain => .ok held fit plain

theorem ofThrow {error : CompileError} (failed : ¬accepted) (nested : error = .nestingTooDeep → deep) :
    Decides level accepted deep fits (throw error : Emit σ μ α) :=
  fun _ _ => .error failed nested

theorem ofGet : Decides level True deep (Walk.Plain level) (get : Emit σ μ (Walk σ μ)) :=
  fun _ plain => .ok trivial plain plain

theorem ofModify {f : Walk σ μ → Walk σ μ} (keeps : ∀ walk, walk.Plain level → (f walk).Plain level) :
    Decides level True deep (fun _ => True) (modify f : Emit σ μ PUnit) :=
  fun walk plain => .ok trivial trivial (keeps walk plain)

theorem bind {x : Emit σ μ α} {f : α → Emit σ μ β} (both : whole ↔ accepted ∧ also)
    (first : Decides level accepted deep fits x)
    (next : ∀ value, fits value → Decides level also deep suits (f value)) :
    Decides level whole deep suits (x >>= f) := by
  intro walk plain
  change Decided level whole deep suits (EStateM.bind x f walk)
  unfold EStateM.bind
  have outcome := first walk plain
  generalize x walk = result at outcome
  cases outcome with
  | error failed nested => exact .error (fun held => failed (both.mp held).1) nested
  | @ok value after held fit plain =>
    have later := next value fit after plain
    change Decided level whole deep suits (f value after)
    generalize f value after = result at later
    cases later with
    | error failed nested => exact .error (fun held => failed (both.mp held).2) nested
    | ok behind suit plain => exact .ok (both.mpr ⟨held, behind⟩) suit plain

theorem andThen {x : Emit σ μ α} {f : α → Emit σ μ β} (first : Decides level accepted deep fits x)
    (next : ∀ value, fits value → Decides level True deep suits (f value)) :
    Decides level accepted deep suits (x >>= f) :=
  bind (by simp) first next

theorem within {enter leave : Walk σ μ → Walk σ μ} {body : Emit σ μ α}
    (enters : ∀ walk, walk.Plain level → (enter walk).Plain inner)
    (leaves : ∀ walk, walk.Plain inner → (leave walk).Plain level)
    (inside : Decides inner accepted deep fits body) :
    Decides level accepted deep fits (Emit.within enter leave body) := by
  intro walk plain
  unfold Emit.within
  have outcome := inside (enter walk) (enters walk plain)
  generalize body (enter walk) = result at outcome
  cases outcome with
  | ok held fit plain => exact .ok held fit (leaves _ plain)
  | error failed nested => exact .error failed nested

theorem congr {x : Emit σ μ α} (decides : Decides level accepted deep fits x) (same : whole ↔ accepted) :
    Decides level whole deep fits x := by
  intro walk plain
  have outcome := decides walk plain
  generalize x walk = result at outcome ⊢
  cases outcome with
  | ok held fit plain => exact .ok (same.mpr held) fit plain
  | error failed nested => exact .error (fun held => failed (same.mp held)) nested

theorem deepen {x : Emit σ μ α} {deeper : Prop} (decides : Decides level accepted deep fits x)
    (more : deep → deeper) : Decides level accepted deeper fits x := by
  intro walk plain
  have outcome := decides walk plain
  generalize x walk = result at outcome ⊢
  cases outcome with
  | ok held fit plain => exact .ok held fit plain
  | error failed nested => exact .error failed (fun tooDeep => more (nested tooDeep))

end Decides

namespace Walk.Plain

variable {level : Nat} {walk : Walk σ μ}

theorem enterFrame (plain : walk.Plain level) : walk.enterFrame.Plain level :=
  ⟨plain.macros, plain.nesting⟩

theorem leaveFrame (plain : walk.Plain level) : walk.leaveFrame.Plain level :=
  ⟨plain.macros, plain.nesting⟩

theorem enterList (plain : walk.Plain level) : walk.enterList.Plain (level + 1) :=
  ⟨plain.macros, congrArg (· + 1) plain.nesting⟩

theorem leaveList (plain : walk.Plain (level + 1)) : walk.leaveList.Plain level :=
  ⟨plain.macros, congrArg (· - 1) plain.nesting⟩

theorem declare (plain : walk.Plain level) (name : String) : (walk.declare name).Plain level := by
  unfold Walk.declare
  split
  · exact plain
  · exact ⟨plain.macros, plain.nesting⟩

end Walk.Plain

namespace Compiler

variable {compiler : Compiler σ μ} {below : Below σ μ} {level : Nat} {deep : Prop}

section Operands

variable {accepts : Datum → Prop}

theorem decides_expr {node : Datum}
    (inside : Decides level (accepts node) deep (·.isSome) (below node)) :
    Decides level (accepts node) deep (fun _ => True) (compiler.expr below node) :=
  inside.andThen fun _ _ => .ofPure trivial trivial

theorem decides_operand {node : Datum}
    (inside : Decides level (accepts node) deep (·.isSome) (below node)) :
    Decides level (accepts node) deep (fun _ => True) (compiler.operand below node) := by
  apply (decides_expr inside).andThen
  intro code _
  exact Decides.ofGet.andThen fun _ _ => .ofPure trivial trivial

theorem decides_emitOperand (use : Use) {node : Datum}
    (inside : Decides level (accepts node) deep (·.isSome) (below node)) :
    Decides level (accepts node) deep (fun _ => True) (compiler.emitOperand below use node) := by
  cases use with
  | value => exact (decides_expr inside).andThen fun _ _ => .ofPure trivial trivial
  | callee => exact (decides_operand inside).andThen fun _ _ => .ofPure trivial trivial
  | statement => exact inside.andThen fun _ _ => .ofPure trivial trivial

theorem decides_emitOperands {operands : List (Use × Datum)}
    (inside : ∀ node ∈ operands.map Prod.snd,
      Decides level (accepts node) deep (·.isSome) (below node)) :
    Decides level (∀ node ∈ operands.map Prod.snd, accepts node) deep (fun _ => True)
      (compiler.emitOperands below operands) := by
  induction operands with
  | nil => exact .ofPure (by simp) trivial
  | cons operand operands ih =>
    rw [List.map_cons, List.forall_mem_cons] at inside
    apply Decides.bind List.forall_mem_cons (decides_emitOperand operand.1 inside.1)
    intro first _
    exact (ih inside.2).andThen fun _ _ => .ofPure trivial trivial

theorem decides_emitConstruct {construct : Construct}
    (inside : ∀ node ∈ construct.nodes, Decides level (accepts node) deep (·.isSome) (below node)) :
    Decides level (∀ node ∈ construct.nodes, accepts node) deep (·.isSome)
      (compiler.emitConstruct below construct) := by
  have operands : Decides level (∀ node ∈ construct.nodes, accepts node) deep (fun _ => True)
      (compiler.emitOperands below construct.operands) := decides_emitOperands inside
  unfold emitConstruct
  split
  · exact operands.andThen fun _ _ => .ofPure trivial rfl
  · have framed : Decides level (∀ node ∈ construct.nodes, accepts node) deep (fun _ => True)
        (do return (← compiler.emitOperands below construct.operands, (← get).locals)) := by
      apply operands.andThen
      intro fragments _
      exact Decides.ofGet.andThen fun _ _ => .ofPure trivial trivial
    apply (framed.within (fun _ => Walk.Plain.enterFrame) (fun _ => Walk.Plain.leaveFrame)).andThen
    exact fun _ _ => .ofPure trivial rfl
  · next name _ =>
    apply operands.andThen
    intro fragments _
    exact (Decides.ofModify fun walk plain => plain.declare name).andThen
      fun _ _ => .ofPure trivial rfl

end Operands

def Accepted (level : Nat) (node : Datum) : Prop :=
  WellFormed node ∧ level + nesting node ≤ maxNesting

/-- Higher than the limit below `level` lists, or made so by a template. -/
def Deep (level : Nat) (node : Datum) : Prop :=
  maxNesting < level + node.height ∨
    ∃ inner, Expanders.none.Compiles node inner ∧ inner.IsSpecial .quasiquote

theorem accepted_atom {node : Datum} (isAtom : node.items? = none) (room : level ≤ maxNesting) :
    Accepted level node := by
  refine ⟨.atom isAtom, ?_⟩
  rw [nesting_atom isAtom]
  exact room

section Lists

variable {items args parts : List Datum} {head : Datum} {form : SpecialForm}

theorem not_accepted_full (full : maxNesting ≤ level) : ¬Accepted level (.list items) := by
  intro accepted
  have room := (nesting_list_le.mp accepted.2).1
  omega

theorem not_accepted_special (unfit : form.compiled? args = none) :
    ¬Accepted level (.list (.symbol form.name :: args)) := by
  intro accepted
  rcases WellFormed.special_iff.mp accepted.1 with ⟨parts, fits, -⟩
  rw [unfit] at fits
  cases fits

theorem accepted_special (room : level < maxNesting) (fits : form.compiled? args = some parts) :
    Accepted level (.list (.symbol form.name :: args)) ↔ ∀ part ∈ parts, Accepted (level + 1) part := by
  simp only [Accepted, WellFormed.special_iff, nesting_list_le, Expanders.parts_special, fits, room,
    Option.getD_some, Option.some.injEq, exists_eq_left', true_and, forall_and]

theorem accepted_application (room : level < maxNesting)
    (ordinary : ∀ form : SpecialForm, head ≠ .symbol form.name) :
    Accepted level (.list (head :: args)) ↔ ∀ item ∈ head :: args, Accepted (level + 1) item := by
  simp only [Accepted, WellFormed.application_iff ordinary, nesting_list_le,
    Expanders.none_parts_application ordinary, room, true_and, forall_and]

theorem Deep.of_part {part : Datum} (compiled : part ∈ Expanders.none.parts (.list items))
    (deep : Deep (level + 1) part) : Deep level (.list items) := by
  rcases Expanders.none_parts_cases compiled with ⟨template, rfl, -⟩ | occurs
  · exact .inr ⟨_, .here, [template], rfl⟩
  · rcases deep with high | ⟨inner, compiles, template⟩
    · have higher := occurs.height_le
      refine .inl ?_
      rw [Datum.height]
      omega
    · exact .inr ⟨inner, .within compiled compiles, template⟩

theorem deep_of_operand {name : String} {datum : Datum} (deep : maxNesting < datum.depth) :
    Deep level (.list [.symbol name, datum]) := by
  refine .inl ?_
  rw [Datum.depth_eq_height] at deep
  simp only [Datum.height, Datum.heightList]
  omega

theorem decides_list (room : level < maxNesting)
    (noMacro : ¬(Datum.list items).IsSpecial .defineMacro)
    (inside : ∀ part ∈ Expanders.none.parts (.list items), Decides (level + 1)
      (Accepted (level + 1) part) (Deep (level + 1) part) (·.isSome) (below part)) :
    Decides (level + 1) (Accepted level (.list items)) (Deep level (.list items)) (·.isSome)
      (compiler.carryOut below (listPlan compiler.target .empty items)) := by
  have lifted : ∀ part ∈ Expanders.none.parts (.list items), Decides (level + 1)
      (Accepted (level + 1) part) (Deep level (.list items)) (·.isSome) (below part) :=
    fun part compiled => (inside part compiled).deepen (.of_part compiled)
  cases items with
  | nil => exact .ofThrow (fun accepted => WellFormed.not_nil accepted.1) (by simp)
  | cons head args =>
    rcases SpecialForm.named_or_ordinary head with ⟨form, rfl⟩ | ordinary
    · rw [Expanders.parts_special] at lifted
      rw [listPlan_special]
      have planned : Plan.Fits args form (specialPlan compiler.target form args : Plan μ) _ :=
        specialPlan_fits compiler.target form args
      generalize fits : form.compiled? args = compiled at planned lifted
      generalize specialPlan compiler.target form args = plan at planned
      cases planned with
      | refused deep =>
        refine .ofThrow (not_accepted_special fits) fun tooDeep => ?_
        rcases deep tooDeep with ⟨datum, rfl, higher⟩
        exact deep_of_operand higher
      | replaced =>
        refine (lifted _ (by simp)).congr ?_
        rw [accepted_special room fits, List.forall_mem_singleton]
      | macroDefined => exact absurd ⟨args, rfl⟩ noMacro
      | built same =>
        refine Decides.congr (decides_emitConstruct fun node member => lifted node ?_) ?_
        · exact (same node).mp member
        · rw [accepted_special room fits]
          exact forall_congr' fun node => imp_congr_left (same node).symm
    · have nodes : (callPlan compiler.target head args).nodes = head :: args := by
        simp [callPlan, Construct.nodes, Function.comp_def]
      rw [Expanders.none_parts_application ordinary] at lifted
      rw [listPlan_application _ ordinary]
      refine Decides.congr (decides_emitConstruct fun node member => lifted node (nodes ▸ member)) ?_
      rw [accepted_application room ordinary, nodes]

end Lists

/-- Without definitions of macros, a node is compiled just where it is accepted. -/
theorem decides_node {levels : Nat} {node : Datum} (room : level ≤ maxNesting)
    (enough : maxNesting < levels + level)
    (noMacros : ∀ inner, Expanders.none.Compiles node inner → ¬inner.IsSpecial .defineMacro) :
    Decides level (Accepted level node) (Deep level node) (·.isSome) (compiler.node levels node) := by
  induction levels generalizing level node with
  | zero => omega
  | succ levels ih =>
    change Decides level _ _ _ (compiler.step (compiler.node levels) node)
    by_cases isAtom : node.items? = none
    · rw [step_atom _ _ isAtom]
      exact .ofPure (accepted_atom isAtom room) rfl
    cases node with
    | list items =>
      by_cases full : maxNesting ≤ level
      · intro walk plain
        rw [step_list_full _ _ (plain.nesting.symm ▸ full)]
        refine .error (not_accepted_full full) fun _ => .inl ?_
        rw [Datum.height]
        omega
      · have shallow : level < maxNesting := Nat.lt_of_not_le full
        have inside : Decides (level + 1) (Accepted level (.list items)) (Deep level (.list items))
            (·.isSome) (compiler.carryOut (compiler.node levels)
              (listPlan compiler.target .empty items)) := by
          apply decides_list shallow (noMacros _ .here)
          intro part compiled
          apply ih shallow (by omega)
          intro inner compiles
          exact noMacros inner (.within compiled compiles)
        intro walk plain
        rw [step_list _ _ (plain.nesting.symm ▸ shallow), plain.macros]
        exact inside.within (fun _ => Walk.Plain.enterList) (fun _ => Walk.Plain.leaveList) walk plain
    | _ => exact absurd rfl isAtom

end Compiler

def Datum.IsRead (form : Datum) : Prop :=
  ∃ source, Datum.readFirst source = .ok (some form) ∨
    ∃ forms, Datum.readAll source = .ok forms ∧ form ∈ forms

theorem Datum.IsRead.height_le {form : Datum} (isRead : form.IsRead) : form.height ≤ maxNesting := by
  rcases isRead with ⟨source, first | ⟨forms, all, member⟩⟩
  · rcases Reader.readFirst_sound first with ⟨tokens, rest, -, one⟩
    have within := Grammar.form_height (Nat.zero_le _) one
    omega
  · rcases Reader.readAll_eq_ok.mp all with ⟨after, done⟩
    rcases Reader.readForms_sound done (Nat.le_refl _) with ⟨used, rest, -, -, read⟩
    have within := Grammar.forms_height (Nat.zero_le _) read
    have below := Datum.height_le_of_mem member
    omega

namespace Compiler

/-- With no macros defined before or in it, a form is compiled if and only if it is well formed and
its compiled positions are not nested too deep. What was read is never refused for its nesting, unless
templates stand in compiled positions. -/
theorem compile_eq_some_iff (compiler : Compiler σ μ) (host : σ) (form : Datum)
    (noMacros : ∀ node, Expanders.none.Compiles form node → ¬node.IsSpecial .defineMacro) :
    ((∃ fragment session, compiler.compile form (.start host) = .ok (some fragment) session) ↔
      WellFormed form ∧ nesting form ≤ maxNesting) ∧
    (form.IsRead → (∀ node, Expanders.none.Compiles form node → ¬node.IsSpecial .quasiquote) →
      ∀ session, compiler.compile form (.start host) ≠ .error .nestingTooDeep session) := by
  have decided : Decided 0 (Accepted 0 form) (Deep 0 form) (·.isSome)
      (compiler.node maxLevels form (Walk.start (.start host))) :=
    decides_node (Nat.zero_le _) (by decide) noMacros _ ⟨rfl, rfl⟩
  rw [Accepted, Nat.zero_add] at decided
  simp only [compile]
  generalize compiler.node maxLevels form (Walk.start (.start host)) = result at decided
  cases decided with
  | @ok code walk accepted emits plain =>
    rcases Option.isSome_iff_exists.mp emits with ⟨fragment, rfl⟩
    refine ⟨iff_of_true ⟨_, _, rfl⟩ accepted, ?_⟩
    intro _ _ session failed
    cases failed
  | @error error walk refused nested =>
    refine ⟨iff_of_false (by simp) refused, ?_⟩
    intro isRead noTemplates session failed
    cases failed
    rcases nested rfl with high | ⟨inner, compiles, template⟩
    · have low := isRead.height_le
      omega
    · exact noTemplates inner compiles template

/-- `(def f (fn (x & more) (. x "push" 1) (try (if x '(a) (quasiquote ((unquote more)))) (catch e (g e)))))` -/
def guardedDefinition : Datum :=
  .list [.symbol "def", .symbol "f", .list [.symbol "fn",
    .list [.symbol "x", .symbol "&", .symbol "more"],
    .list [.symbol ".", .symbol "x", .string "push", .integer 1],
    .list [.symbol "try", .list [.symbol "if", .symbol "x", .list [.symbol "quote", .list [.symbol "a"]],
        .list [.symbol "quasiquote", .list [.list [.symbol "unquote", .symbol "more"]]]],
      .list [.symbol "catch", .symbol "e", .list [.symbol "g", .symbol "e"]]]]]

theorem compile_eq_some_iff_guardedDefinition :
    compile ⟨.ruby, Host.detached⟩ guardedDefinition (.start ()) = .ok (some
      "f = ->(x, *more) \x7b (x.push(1); begin; (x ? [:a] : cons.(more, [])); rescue => e; g.(e); end) \x7d")
      (.start ()) ∧ WellFormed guardedDefinition ∧ nesting guardedDefinition ≤ maxNesting := by
  have compiled : compile ⟨.ruby, Host.detached⟩ guardedDefinition (.start ()) = .ok (some
      "f = ->(x, *more) \x7b (x.push(1); begin; (x ? [:a] : cons.(more, [])); rescue => e; g.(e); end) \x7d")
      (.start ()) := by
    cbv
  have noMacros : ∀ node, Expanders.none.Compiles guardedDefinition node → ¬node.IsSpecial .defineMacro :=
    fun _ => Expanders.none_compiles_not_special (by decide) (by decide)
  exact ⟨compiled, (compile_eq_some_iff _ () guardedDefinition noMacros).1.mp ⟨_, _, compiled⟩⟩

end Compiler

end LispCompiler
