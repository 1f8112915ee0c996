import LispCompiler.Proofs.Compiler.Grouping
import LispCompiler.Proofs.Target.Assignment

/-!
Operands that are put next to an operator without parentheses. The predicate of a conditional and the
list that a function is applied to should not be bare assignments, as these bind looser. Main statement:
they are exactly where the target is Ruby and the operand is a definition, or a macro call or template
that is compiled as one.
-/

namespace LispCompiler

def Datum.definition (name : String) (value : Datum) : Datum :=
  .list [.symbol SpecialForm.define.name, .symbol name, value]

theorem SpecialForm.name_inj {first second : SpecialForm} (same : first.name = second.name) :
    first = second := by
  have named := ofName?_name first
  rw [same, ofName?_name] at named
  exact (Option.some.inj named).symm

namespace Compiler

open Emit (Ensures Yields)

open Nesting

/-- Which node is compiled where another one stands: templates and macro calls give way to what they
stand for, and each call may change the host. -/
inductive Resolves (compiler : Compiler σ μ) : Session σ μ → Datum → Datum → Prop
  | self {session : Session σ μ} {node : Datum} : Resolves compiler session node node
  | template {session : Session σ μ} {template expanded last : Datum}
      (expands : Template.expand template = .ok expanded)
      (further : Resolves compiler session expanded last) :
      Resolves compiler session (.list [.symbol SpecialForm.quasiquote.name, template]) last
  | call {session : Session σ μ} {name : String} {expander : μ} {args : List Datum}
      {expansion last : Datum} {host : σ} (ordinary : SpecialForm.ofName? name = none)
      (defined : session.macros.get? name = some expander)
      (expands : compiler.host.expand expander args session.host = .ok expansion host)
      (further : Resolves compiler { session with host } expansion last) :
      Resolves compiler session (.list (.symbol name :: args)) last

def Assigning (compiler : Compiler σ μ) (session : Session σ μ) (node : Datum) : Prop :=
  compiler.target = .ruby ∧
    ∃ name value, name ≠ "" ∧ compiler.Resolves session node (.definition name value)

section Resolving

variable {compiler : Compiler σ μ} {session : Session σ μ} {node : Datum} {args : List Datum}

theorem assigning_cases (assigning : compiler.Assigning session node) :
    (compiler.target = .ruby ∧ ∃ name value, name ≠ "" ∧ node = .definition name value) ∨
    (∃ template expanded, node = .list [.symbol SpecialForm.quasiquote.name, template] ∧
      Template.expand template = .ok expanded ∧ compiler.Assigning session expanded) ∨
    ∃ name expander args expansion host, node = .list (.symbol name :: args) ∧
      SpecialForm.ofName? name = none ∧ session.macros.get? name = some expander ∧
      compiler.host.expand expander args session.host = .ok expansion host ∧
      compiler.Assigning { session with host } expansion := by
  rcases assigning with ⟨isRuby, name, value, filled, resolves⟩
  generalize target : Datum.definition name value = last at resolves
  cases resolves with
  | self => exact .inl ⟨isRuby, name, value, filled, target.symm⟩
  | template expands further =>
    subst target
    exact .inr (.inl ⟨_, _, rfl, expands, isRuby, name, value, filled, further⟩)
  | call ordinary defined expands further =>
    subst target
    exact .inr (.inr ⟨_, _, _, _, _, rfl, ordinary, defined, expands, isRuby, name, value, filled, further⟩)

theorem not_assigning_atom (isAtom : node.items? = none) : ¬compiler.Assigning session node := by
  intro assigning
  rcases assigning_cases assigning with ⟨_, _, _, _, rfl⟩ | ⟨_, _, rfl, _⟩ | ⟨_, _, _, _, _, rfl, _⟩
  all_goals cases isAtom

/-- A special form that is no template can only be a definition by itself. -/
theorem assigning_special {form : SpecialForm} (noTemplate : form ≠ .quasiquote) :
    compiler.Assigning session (.list (.symbol form.name :: args)) ↔ compiler.target = .ruby ∧
      ∃ name value, name ≠ "" ∧ .list (.symbol form.name :: args) = Datum.definition name value := by
  constructor
  · intro assigning
    rcases assigning_cases assigning with itself | ⟨_, _, same, _⟩ | ⟨_, _, _, _, _, same, ordinary, _⟩
    · exact itself
    · simp only [Datum.list.injEq, List.cons.injEq, Datum.symbol.injEq] at same
      exact absurd (SpecialForm.name_inj same.1) noTemplate
    · simp only [Datum.list.injEq, List.cons.injEq, Datum.symbol.injEq] at same
      rw [← same.1, SpecialForm.ofName?_name] at ordinary
      cases ordinary
  · intro itself
    rcases itself with ⟨isRuby, name, value, filled, same⟩
    exact ⟨isRuby, name, value, filled, same ▸ .self⟩

theorem not_assigning_special {form : SpecialForm} (noTemplate : form ≠ .quasiquote)
    (noDefinition : form ≠ .define) :
    ¬compiler.Assigning session (.list (.symbol form.name :: args)) := by
  intro assigning
  rcases (assigning_special noTemplate).mp assigning with ⟨_, _, _, _, same⟩
  simp only [Datum.definition, Datum.list.injEq, List.cons.injEq, Datum.symbol.injEq] at same
  exact noDefinition (SpecialForm.name_inj same.1)

theorem assigning_template {template expanded : Datum} (expands : Template.expand template = .ok expanded) :
    compiler.Assigning session (.list [.symbol SpecialForm.quasiquote.name, template]) ↔
      compiler.Assigning session expanded := by
  constructor
  · intro assigning
    rcases assigning_cases assigning with ⟨_, _, _, _, same⟩ | ⟨_, _, same, expands', inside⟩ |
      ⟨_, _, _, _, _, same, ordinary, _⟩
    · simp [Datum.definition] at same
    · simp only [Datum.list.injEq, List.cons.injEq, and_true, true_and] at same
      subst same
      cases expands.symm.trans expands'
      exact inside
    · simp only [Datum.list.injEq, List.cons.injEq, Datum.symbol.injEq] at same
      rw [← same.1, SpecialForm.ofName?_name] at ordinary
      cases ordinary
  · intro assigning
    rcases assigning with ⟨isRuby, name, value, filled, further⟩
    exact ⟨isRuby, name, value, filled, .template expands further⟩

theorem assigning_ordinary {head : Datum} (ordinary : ∀ form : SpecialForm, head ≠ .symbol form.name)
    (assigning : compiler.Assigning session (.list (head :: args))) :
    ∃ name expander expansion host, head = .symbol name ∧ session.macros.get? name = some expander ∧
      compiler.host.expand expander args session.host = .ok expansion host ∧
      compiler.Assigning { session with host } expansion := by
  rcases assigning_cases assigning with ⟨_, _, _, _, same⟩ | ⟨_, _, same, _⟩ |
    ⟨name, expander, others, expansion, host, same, _, defined, expands, inside⟩
  · simp only [Datum.definition, Datum.list.injEq, List.cons.injEq] at same
    exact absurd same.1 (ordinary .define)
  · simp only [Datum.list.injEq, List.cons.injEq] at same
    exact absurd same.1 (ordinary .quasiquote)
  · simp only [Datum.list.injEq, List.cons.injEq] at same
    rcases same with ⟨rfl, rfl⟩
    exact ⟨name, expander, expansion, host, rfl, defined, expands, inside⟩

theorem assigning_call {name : String} {expander : μ} {expansion : Datum} {host : σ}
    (ordinary : ∀ form : SpecialForm, Datum.symbol name ≠ .symbol form.name)
    (defined : session.macros.get? name = some expander)
    (expands : compiler.host.expand expander args session.host = .ok expansion host) :
    compiler.Assigning session (.list (.symbol name :: args)) ↔
      compiler.Assigning { session with host } expansion := by
  constructor
  · intro assigning
    rcases assigning_ordinary ordinary assigning with ⟨_, _, _, _, same, defined', expands', inside⟩
    cases same
    cases defined.symm.trans defined'
    cases expands.symm.trans expands'
    exact inside
  · intro assigning
    rcases assigning with ⟨isRuby, name, value, filled, further⟩
    exact ⟨isRuby, name, value, filled, .call (SpecialForm.ofName?_eq_none ordinary) defined expands further⟩

end Resolving

section Plans

variable (target : Target)

def Construct.Plain (construct : Construct) : Prop :=
  ∀ locals fragments, ¬IsAssignment (construct.finish locals fragments)

inductive Plan.Quiet : Plan μ → Prop
  | refuse {error : CompileError} : Quiet (.refuse error)
  | defineMacro {name : String} {function : Datum} : Quiet (.defineMacro name function)
  | tied {construct : Construct} (tied : construct.Tied) : Quiet (.construct construct)
  | plain {construct : Construct} (plain : construct.Plain) : Quiet (.construct construct)

theorem not_isAssignment_empty : ¬IsAssignment "" :=
  not_isAssignment_of_grouped ⟨neutral_empty, rfl⟩

theorem tied_applyPlan (function list : Datum) : (applyPlan target function list).Tied := by
  refine ⟨rfl, ⟨_, _, rfl⟩, fun first fragments grouped each => ?_⟩
  simp only [applyPlan]
  split
  · next same =>
    cases same
    exact grouped_apply target grouped (List.forall_mem_singleton.mp each)
  · exact ⟨neutral_empty, rfl⟩

theorem plain_sequencePlan (nodes : List Datum) : (sequencePlan target nodes).Plain :=
  fun _ _ => not_isAssignment_sequence target _

theorem plain_conditionalPlan (predicate thenArm elseArm : Datum) :
    (conditionalPlan predicate thenArm elseArm).Plain := by
  intro locals fragments
  simp only [conditionalPlan]
  split
  · exact not_isAssignment_conditional _ _ _
  · exact not_isAssignment_empty

theorem plain_guardPlan (node : Datum) (binding : String) (handler : Datum) :
    (guardPlan target node binding handler).Plain := by
  intro locals fragments
  simp only [guardPlan]
  split
  · exact not_isAssignment_guard target _ _ _
  · exact not_isAssignment_empty

theorem quiet_of_groups {plan : Plan μ} (groups : plan.Groups target) : plan.Quiet := by
  cases groups with
  | refuse => exact .refuse
  | tied tied => exact .tied tied
  | sequence => exact .plain (plain_sequencePlan target _)

theorem quiet_function (args : List Datum) : (specialPlan target .function args : Plan μ).Quiet := by
  cases args with
  | nil => exact .refuse
  | cons params nodes =>
    simp only [specialPlan]
    split
    · exact .refuse
    · exact .plain fun _ _ => not_isAssignment_lambda target _ _ _ _

theorem quiet_specialPlan : ∀ (form : SpecialForm) (args : List Datum),
    form ∉ [.define, .block, .quasiquote] → (specialPlan target form args : Plan μ).Quiet
  | .define, _, other | .block, _, other | .quasiquote, _, other => absurd (by simp) other
  | .apply, [function, list], _ => .tied (tied_applyPlan target function list)
  | .defineMacro, [name, _], _ => by
    cases name with
    | symbol name => exact .defineMacro
    | _ => exact .refuse
  | .sequence, nodes, _ => .plain (plain_sequencePlan target nodes)
  | .function, args, _ => quiet_function target args
  | .conditional, [predicate, thenArm, elseArm], _ =>
    .plain (plain_conditionalPlan predicate thenArm elseArm)
  | .send, args, _ => quiet_of_groups target (groups_send target args)
  | .quote, [datum], _ => by
    simp only [specialPlan]
    split
    · exact .refuse
    · exact .plain fun _ _ => not_isAssignment_literal target datum
  | .guard, [node, _], _ => by
    simp only [specialPlan]
    split
    · exact .refuse
    · exact .plain (plain_guardPlan target node _ _)
  | .apply, [], _ | .apply, [_], _ | .apply, _ :: _ :: _ :: _, _ => .refuse
  | .defineMacro, [], _ | .defineMacro, [_], _ | .defineMacro, _ :: _ :: _ :: _, _ => .refuse
  | .conditional, [], _ | .conditional, [_], _ | .conditional, [_, _], _ => .refuse
  | .conditional, _ :: _ :: _ :: _ :: _, _ | .quote, [], _ | .quote, _ :: _ :: _, _ => .refuse
  | .guard, [], _ | .guard, [_], _ | .guard, _ :: _ :: _ :: _, _ => .refuse

theorem not_isAssignment_atomFragment {node : Datum} (isAtom : node.items? = none) :
    ¬IsAssignment (atomFragment target node) := by
  cases node with
  | list items => cases isAtom
  | symbol name =>
    simp only [atomFragment]
    split
    · exact not_isAssignment_symbol target _
    · exact not_isAssignment_of_grouped (grouped_of_simple (ofName_simple name))
  | integer value => exact not_isAssignment_literal target (.integer value)
  | float value => exact not_isAssignment_literal target (.float value)
  | string text => exact not_isAssignment_literal target (.string text)
  | bool value => exact not_isAssignment_literal target (.bool value)
  | nil => exact not_isAssignment_literal target .nil

end Plans

section Nodes

variable {compiler : Compiler σ μ} {below : Below σ μ}

def AssigningCode (code : Option String) : Prop :=
  ∃ text ∈ code, IsAssignment text

theorem assigningCode_some {text : String} : AssigningCode (some text) ↔ IsAssignment text := by
  simp [AssigningCode]

theorem ensures_finish (construct : Construct) :
    Ensures (fun code _ => ∃ locals fragments, code = some (construct.finish locals fragments))
      (compiler.emitConstruct below construct) := by
  unfold emitConstruct
  split
  · exact .ofLast fun fragments => .ofPure fun _ => ⟨_, _, rfl⟩
  · exact .ofLast fun parts => .ofPure fun _ => ⟨_, _, rfl⟩
  · exact .ofLast fun fragments => .ofLast fun _ => .ofPure fun _ => ⟨_, _, rfl⟩

theorem ensures_quiet {plan : Plan μ} (quiet : plan.Quiet)
    (inside : ∀ node, Yields NeutralCode (below node)) (groups : GroupsBelow below) :
    Ensures (fun code _ => ¬AssigningCode code) (compiler.carryOut below plan) := by
  cases quiet with
  | refuse => exact .ofThrow _
  | defineMacro => exact .ofLast fun _ => .ofPure fun _ => by simp [AssigningCode]
  | tied tied =>
    intro walk code after done assigns
    rcases assigns with ⟨text, there, isAssignment⟩
    have grouped := ensures_tied tied inside groups walk code after done text there
    exact not_isAssignment_of_grouped grouped isAssignment
  | @plain construct plain =>
    intro walk code after done
    rcases ensures_finish construct walk code after done with ⟨locals, fragments, rfl⟩
    rw [assigningCode_some]
    exact plain locals fragments

def AssignsBelow (compiler : Compiler σ μ) (below : Below σ μ) : Prop :=
  ∀ node walk code after, below node walk = .ok code after →
    (AssigningCode code ↔ compiler.Assigning walk.toSession node)

theorem isAssignment_expr (assigns : compiler.AssignsBelow below) {node : Datum} {walk after : Walk σ μ}
    {text : String} (done : compiler.expr below node walk = .ok text after) :
    IsAssignment text ↔ compiler.Assigning walk.toSession node := by
  rcases bind_eq_ok_iff.mp done with ⟨code, middle, emitted, rest⟩
  cases rest
  rw [← assigns node walk code after emitted]
  cases code with
  | none =>
    refine iff_of_false (not_isAssignment_of_grouped (grouped_nil _)) ?_
    simp [AssigningCode]
  | some text => exact assigningCode_some.symm

variable {walk after : Walk σ μ} {code : Option String}

theorem assigns_block (assigns : compiler.AssignsBelow below) (args : List Datum)
    (done : compiler.special below .block args walk = .ok code after) : ¬AssigningCode code := by
  match args with
  | [function] =>
    rcases bind_eq_ok_iff.mp done with ⟨text, middle, emitted, rest⟩
    cases rest
    rw [assigningCode_some]
    refine not_isAssignment_block _ fun other => ?_
    rw [isAssignment_expr assigns emitted]
    exact fun assigning => other assigning.1
  | [] | _ :: _ :: _ => cases done

theorem assigns_define (args : List Datum)
    (done : compiler.special below .define args walk = .ok code after) :
    AssigningCode code ↔
      compiler.Assigning walk.toSession (.list (.symbol SpecialForm.define.name :: args)) := by
  rw [assigning_special (by decide)]
  match args with
  | [.symbol name, value] =>
    rcases bind_eq_ok_iff.mp done with ⟨_, _, named, rest⟩
    cases named
    rcases bind_eq_ok_iff.mp rest with ⟨text, middle, emitted, rest⟩
    cases rest
    rw [assigningCode_some, isAssignment_define_iff]
    simp [Datum.definition]
  | [] | [_] | _ :: _ :: _ :: _ => cases done
  | [.integer _, _] | [.float _, _] | [.bool _, _] | [.string _, _] | [.nil, _] | [.list _, _] => cases done

theorem assigns_quasiquote (assigns : compiler.AssignsBelow below) (args : List Datum)
    (done : compiler.special below .quasiquote args walk = .ok code after) :
    AssigningCode code ↔
      compiler.Assigning walk.toSession (.list (.symbol SpecialForm.quasiquote.name :: args)) := by
  match args with
  | [template] =>
    rcases bind_eq_ok_iff.mp done with ⟨_, middle, checked, rest⟩
    unfold checkDepth at checked
    split at checked
    · cases checked
    · cases checked
      cases expands : Template.expand template with
      | error flaw =>
        rw [expands] at rest
        cases rest
      | ok expanded =>
        rw [expands] at rest
        rw [assigning_template expands]
        exact assigns expanded walk code after rest
  | [] | _ :: _ :: _ => cases done

theorem assigns_macroCall (assigns : compiler.AssignsBelow below) {name : String} {expander : μ}
    {args : List Datum} (ordinary : ∀ form : SpecialForm, Datum.symbol name ≠ .symbol form.name)
    (defined : walk.macros.get? name = some expander)
    (done : compiler.macroCall below name expander args walk = .ok code after) :
    AssigningCode code ↔ compiler.Assigning walk.toSession (.list (.symbol name :: args)) := by
  rcases bind_eq_ok_iff.mp done with ⟨_, _, seen, rest⟩
  cases seen
  split at rest
  · cases rest
  · rcases bind_eq_ok_iff.mp rest with ⟨expansion, middle, answered, rest⟩
    unfold Emit.ofHost at answered
    split at answered
    · next expands =>
      cases answered
      rcases Emit.within_eq_ok_iff.mp rest with ⟨inner, given, -⟩
      rw [assigning_call ordinary defined expands]
      exact assigns expansion _ code inner given
    · cases answered

theorem assigns_special (inside : ∀ node, Yields NeutralCode (below node)) (groups : GroupsBelow below)
    (assigns : compiler.AssignsBelow below) (form : SpecialForm) (args : List Datum)
    (done : compiler.special below form args walk = .ok code after) :
    AssigningCode code ↔ compiler.Assigning walk.toSession (.list (.symbol form.name :: args)) := by
  by_cases isDefinition : form = .define
  · subst isDefinition
    exact assigns_define args done
  by_cases isTemplate : form = .quasiquote
  · subst isTemplate
    exact assigns_quasiquote assigns args done
  refine iff_of_false ?_ (not_assigning_special isTemplate isDefinition)
  by_cases isBlock : form = .block
  · subst isBlock
    exact assigns_block assigns args done
  · have other : form ∉ [.define, .block, .quasiquote] := by simp [isDefinition, isBlock, isTemplate]
    rw [special_eq] at done
    exact ensures_quiet (quiet_specialPlan _ form args other) inside groups _ _ _ done

theorem assigns_list (inside : ∀ node, Yields NeutralCode (below node)) (groups : GroupsBelow below)
    (assigns : compiler.AssignsBelow below) (items : List Datum) (walk : Walk σ μ)
    (done : compiler.carryOut below (listPlan compiler.target walk.macros items) walk = .ok code after) :
    AssigningCode code ↔ compiler.Assigning walk.toSession (.list items) := by
  cases items with
  | nil => cases done
  | cons head args =>
    rcases SpecialForm.named_or_ordinary head with ⟨form, rfl⟩ | ordinary
    · rw [listPlan_special, ← special_eq] at done
      exact assigns_special inside groups assigns form args done
    · by_cases defined : ∃ name expander, head = .symbol name ∧ walk.macros.get? name = some expander
      · rcases defined with ⟨name, expander, rfl, defined⟩
        rw [listPlan_macroCall (SpecialForm.ofName?_eq_none ordinary) defined] at done
        exact assigns_macroCall assigns ordinary defined done
      · have undefined : ∀ name, head = .symbol name → walk.macros.get? name = none := by
          intro name same
          cases found : walk.macros.get? name with
          | none => rfl
          | some expander => exact absurd ⟨name, expander, same, found⟩ defined
        rw [listPlan_call _ ordinary undefined] at done
        refine iff_of_false (ensures_quiet (.tied (tied_callPlan _ head args)) inside groups _ _ _ done) ?_
        intro assigning
        rcases assigning_ordinary ordinary assigning with ⟨name, expander, _, _, same, found, _⟩
        exact defined ⟨name, expander, same, found⟩

theorem assignsBelow_step (inside : ∀ node, Yields NeutralCode (below node))
    (groups : GroupsBelow below) (assigns : compiler.AssignsBelow below) :
    compiler.AssignsBelow (compiler.step below) := by
  intro node walk code after done
  by_cases isAtom : node.items? = none
  · rw [step_atom _ _ isAtom] at done
    cases done
    refine iff_of_false ?_ (not_assigning_atom isAtom)
    rw [assigningCode_some]
    exact not_isAssignment_atomFragment compiler.target isAtom
  cases node with
  | list items =>
    rcases step_list_eq_ok done with ⟨inner, given, -⟩
    exact assigns_list inside groups assigns items walk.enterList given
  | _ => exact absurd rfl isAtom

theorem assignsBelow_node (levels : Nat) : compiler.AssignsBelow (compiler.node levels) := by
  induction levels with
  | zero =>
    intro node walk code after done
    cases done
  | succ levels ih => exact assignsBelow_step (yields_node levels) (groupsBelow_node levels) ih

end Nodes

section Splicing

variable {compiler : Compiler σ μ} {levels : Nat} {walk after : Walk σ μ} {code : Option String}

theorem conditional_spliced {predicate thenArm elseArm : Datum}
    (done : compiler.special (compiler.node levels) .conditional [predicate, thenArm, elseArm] walk =
      .ok code after) :
    ∃ text thenText elseText middle, compiler.expr (compiler.node levels) predicate walk = .ok text middle ∧
      code = some (Target.conditional text thenText elseText) ∧
      (IsAssignment text ↔ compiler.Assigning walk.toSession predicate) := by
  rcases bind_eq_ok_iff.mp done with ⟨text, middle, first, rest⟩
  rcases bind_eq_ok_iff.mp rest with ⟨thenText, _, _, rest⟩
  rcases bind_eq_ok_iff.mp rest with ⟨elseText, _, _, rest⟩
  cases rest
  exact ⟨text, thenText, elseText, middle, first, rfl, isAssignment_expr (assignsBelow_node levels) first⟩

theorem apply_spliced {function list : Datum}
    (done : compiler.special (compiler.node levels) .apply [function, list] walk = .ok code after) :
    ∃ callee text middle, compiler.operand (compiler.node levels) function walk = .ok callee middle ∧
      compiler.expr (compiler.node levels) list middle = .ok text after ∧
      code = some (compiler.target.apply callee text) ∧
      (IsAssignment text ↔ compiler.Assigning middle.toSession list) := by
  rcases bind_eq_ok_iff.mp done with ⟨callee, middle, first, rest⟩
  rcases bind_eq_ok_iff.mp rest with ⟨text, _, second, rest⟩
  cases rest
  exact ⟨callee, text, middle, first, second, rfl, isAssignment_expr (assignsBelow_node levels) second⟩

end Splicing

/-- The predicate of a conditional and the list that a function is applied to are put into the code as
they are, and are bare assignments exactly where they are compiled as definitions in Ruby. -/
theorem spliced_isAssignment_iff (compiler : Compiler σ μ) (levels : Nat) (walk after : Walk σ μ)
    (code : Option String) :
    (∀ predicate thenArm elseArm : Datum,
      compiler.special (compiler.node levels) .conditional [predicate, thenArm, elseArm] walk =
        .ok code after →
      ∃ text thenText elseText middle,
        compiler.expr (compiler.node levels) predicate walk = .ok text middle ∧
        code = some (Target.conditional text thenText elseText) ∧
        (IsAssignment text ↔ compiler.Assigning walk.toSession predicate)) ∧
    ∀ function list : Datum,
      compiler.special (compiler.node levels) .apply [function, list] walk = .ok code after →
      ∃ callee text middle, compiler.operand (compiler.node levels) function walk = .ok callee middle ∧
        compiler.expr (compiler.node levels) list middle = .ok text after ∧
        code = some (compiler.target.apply callee text) ∧
        (IsAssignment text ↔ compiler.Assigning middle.toSession list) :=
  ⟨fun _ _ _ => conditional_spliced, fun _ _ => apply_spliced⟩

def assigner : Compiler Unit Unit :=
  ⟨.ruby, .constant (.definition "x" (.symbol "p"))⟩

/-- In `(if (m) t e)` and `(apply f (m))` the macro hides the definition. -/
theorem spliced_isAssignment_macroCall :
    (∃ text thenText elseText, "(x = p ? t : e)" = Target.conditional text thenText elseText ∧
      IsAssignment text) ∧
    ∃ callee text, "f.(*x = p)" = Target.ruby.apply callee text ∧ IsAssignment text := by
  let walk : Walk Unit Unit := Walk.start ⟨(), .define .empty "m" ()⟩
  let after : Walk Unit Unit := { walk with frames := [["x"]] }
  have assigning : assigner.Assigning walk.toSession (.list [.symbol "m"]) :=
    ⟨rfl, "x", .symbol "p", by decide, .call rfl rfl rfl .self⟩
  constructor
  · have compiles : assigner.special (assigner.node maxLevels) .conditional
        [.list [.symbol "m"], .symbol "t", .symbol "e"] walk = .ok (some "(x = p ? t : e)") after := by
      rfl
    rcases (spliced_isAssignment_iff assigner maxLevels walk after _).1 _ _ _ compiles with
      ⟨text, thenText, elseText, _, _, code, isAssignment⟩
    exact ⟨text, thenText, elseText, Option.some.inj code, isAssignment.mpr assigning⟩
  · have compiles : assigner.special (assigner.node maxLevels) .apply
        [.symbol "f", .list [.symbol "m"]] walk = .ok (some "f.(*x = p)") after := by
      rfl
    rcases (spliced_isAssignment_iff assigner maxLevels walk after _).2 _ _ compiles with
      ⟨callee, text, middle, first, _, code, isAssignment⟩
    -- a symbol leaves the walk as it is
    have unchanged : EStateM.Result.ok "f" walk = .ok callee middle := first
    cases unchanged
    exact ⟨"f", text, Option.some.inj code, isAssignment.mpr assigning⟩

theorem spliced_isAssignment_definition :
    compile ⟨.ruby, Host.detached⟩ (.list [.symbol "if", .definition "x" (.symbol "p"), .symbol "t",
      .symbol "e"]) (.start ()) = .ok (some (Target.conditional "x = p" "t" "e")) (.start ()) ∧
    compile ⟨.ruby, Host.detached⟩ (.list [.symbol "apply", .symbol "f", .definition "x" (.symbol "p")])
      (.start ()) = .ok (some (Target.ruby.apply "f" "x = p")) (.start ()) ∧
    IsAssignment "x = p" :=
  ⟨rfl, rfl, "x", "p", by decide, rfl⟩

end Compiler

end LispCompiler
