import LispCompiler.Proofs.Compiler.Agreement
import LispCompiler.Proofs.Compiler.Positions

/-!
Two walks over the same form that stay related, whatever the relation is. Main statement: all that is
carried out for a list, macro calls apart, keeps the walks related if the nodes below it do. The
relation of a walk to one that takes notes beside the host's state is of this kind.
-/

namespace LispCompiler

namespace Compiler

/-- A relation between the walks of two compilers that frames and definitions keep, and that lets
neither tell which of the two it is. -/
structure Lockstep (walks : Walk σ μ → Walk τ μ → Prop) (first : Compiler σ μ)
    (second : Compiler τ μ) : Prop where
  target : first.target = second.target
  macros {s : Walk σ μ} {t : Walk τ μ} (related : walks s t) : s.macros = t.macros
  locals {s : Walk σ μ} {t : Walk τ μ} (related : walks s t) : s.locals = t.locals
  enterFrame {s : Walk σ μ} {t : Walk τ μ} (related : walks s t) : walks s.enterFrame t.enterFrame
  leaveFrame {s : Walk σ μ} {t : Walk τ μ} (related : walks s t) : walks s.leaveFrame t.leaveFrame
  declare {s : Walk σ μ} {t : Walk τ μ} (name : String) (related : walks s t) :
    walks (s.declare name) (t.declare name)
  define {s : Walk σ μ} {t : Walk τ μ} (name : String) (expander : μ) (related : walks s t) :
    walks { s with macros := s.macros.define name expander }
      { t with macros := t.macros.define name expander }
  evalMacro (name fragment : String) :
    Agree walks Eq (Emit.ofHost (.macroDefinition name) (first.host.evalMacro name fragment))
      (Emit.ofHost (.macroDefinition name) (second.host.evalMacro name fragment))

end Compiler

namespace Compiler.Lockstep

variable {walks : Walk σ μ → Walk τ μ → Prop} {first : Compiler σ μ} {second : Compiler τ μ}
  {below : Below σ μ} {below' : Below τ μ}

theorem expr (lockstep : Lockstep walks first second) {node : Datum}
    (agree : Agree walks Eq (below node) (below' node)) :
    Agree walks Eq (first.expr below node) (second.expr below' node) := by
  apply agree.bind
  rintro code _ rfl
  rw [lockstep.target]
  exact .ofPure rfl

theorem operand (lockstep : Lockstep walks first second) {node : Datum}
    (agree : Agree walks Eq (below node) (below' node)) :
    Agree walks Eq (first.operand below node) (second.operand below' node) := by
  apply (lockstep.expr agree).bind
  rintro code _ rfl
  apply Agree.ofGet.bind
  intro s t related
  rw [lockstep.macros related]
  exact .ofPure rfl

theorem emitOperand (lockstep : Lockstep walks first second) (use : Use) {node : Datum}
    (agree : Agree walks Eq (below node) (below' node)) :
    Agree walks Eq (first.emitOperand below use node) (second.emitOperand below' use node) := by
  cases use with
  | value =>
    apply (lockstep.expr agree).bind
    rintro code _ rfl
    exact .ofPure rfl
  | callee =>
    apply (lockstep.operand agree).bind
    rintro code _ rfl
    exact .ofPure rfl
  | statement =>
    apply agree.bind
    rintro code _ rfl
    exact .ofPure rfl

theorem emitOperands (lockstep : Lockstep walks first second) (operands : List (Use × Datum))
    (agree : ∀ node, Agree walks Eq (below node) (below' node)) :
    Agree walks Eq (first.emitOperands below operands) (second.emitOperands below' operands) := by
  induction operands with
  | nil => exact .ofPure rfl
  | cons operand operands ih =>
    apply (lockstep.emitOperand operand.1 (agree operand.2)).bind
    rintro fragments _ rfl
    apply ih.bind
    rintro others _ rfl
    exact .ofPure rfl

theorem emitConstruct (lockstep : Lockstep walks first second) (construct : Construct)
    (agree : ∀ node, Agree walks Eq (below node) (below' node)) :
    Agree walks Eq (first.emitConstruct below construct) (second.emitConstruct below' construct) := by
  have operands := lockstep.emitOperands construct.operands agree
  unfold Compiler.emitConstruct
  split
  · apply operands.bind
    rintro fragments _ rfl
    exact .ofPure rfl
  · have framed : Agree walks Eq
        (do return (← first.emitOperands below construct.operands, (← get).locals))
        (do return (← second.emitOperands below' construct.operands, (← get).locals)) := by
      apply operands.bind
      rintro fragments _ rfl
      apply Agree.ofGet.bind
      intro s t related
      rw [lockstep.locals related]
      exact .ofPure rfl
    have bracketed : Agree walks Eq (Emit.within Walk.enterFrame Walk.leaveFrame _)
        (Emit.within Walk.enterFrame Walk.leaveFrame _) :=
      Emit.agree_within (fun _ _ => lockstep.enterFrame) (fun _ _ => lockstep.leaveFrame) framed
    apply bracketed.bind
    rintro fragments _ rfl
    exact .ofPure rfl
  · next name _ =>
    apply operands.bind
    rintro fragments _ rfl
    apply (Agree.ofModify fun _ _ related => lockstep.declare name related).bind
    rintro _ _ -
    exact .ofPure rfl

theorem defineMacro (lockstep : Lockstep walks first second) (name : String) (function : Datum)
    (agree : Agree walks Eq (below function) (below' function)) :
    Agree walks Eq (first.defineMacro below name function) (second.defineMacro below' name function) := by
  apply (lockstep.expr agree).bind
  rintro fragment _ rfl
  apply (lockstep.evalMacro name fragment).bind
  rintro expander _ rfl
  exact .ofModify fun _ _ related => lockstep.define name expander related

/-- Macro calls are left out, because relations may tell the levels of expansion apart. -/
theorem carryOut (lockstep : Lockstep walks first second) {plan : Plan μ}
    (agree : ∀ node, Agree walks Eq (below node) (below' node))
    (noCall : ∀ name expander args, plan ≠ .expand name expander args) :
    Agree walks Eq (first.carryOut below plan) (second.carryOut below' plan) := by
  cases plan with
  | refuse error => exact .ofThrow error
  | become node => exact agree node
  | defineMacro name function =>
    apply (lockstep.defineMacro name function (agree function)).bind
    rintro _ _ -
    exact .ofPure rfl
  | expand name expander args => exact absurd rfl (noCall name expander args)
  | construct construct => exact lockstep.emitConstruct construct agree

theorem special (lockstep : Lockstep walks first second) (form : SpecialForm) (args : List Datum)
    (agree : ∀ node, Agree walks Eq (below node) (below' node)) :
    Agree walks Eq (first.special below form args) (second.special below' form args) := by
  rw [special_eq, special_eq, lockstep.target]
  refine lockstep.carryOut agree ?_
  intro name expander others same
  have fits : Plan.Fits args form (specialPlan second.target form args : Plan μ) (form.compiled? args) :=
    specialPlan_fits second.target form args
  rw [same] at fits
  cases fits

theorem application (lockstep : Lockstep walks first second) (head : Datum) (args : List Datum)
    (agree : ∀ node, Agree walks Eq (below node) (below' node)) :
    Agree walks Eq (first.application below head args) (second.application below' head args) := by
  rw [application_eq, application_eq, lockstep.target]
  exact lockstep.emitConstruct _ agree

end Compiler.Lockstep

section Annotation

def Host.annotate (note : α → ρ → ρ) (action : EStateM HostError σ α) :
    EStateM HostError (σ × ρ) α := fun (state, notes) =>
  match action state with
  | .ok value state => .ok value (state, note value notes)
  | .error error state => .error error (state, notes)

def Host.annotated (note : Datum → ρ → ρ) (host : Host σ μ) : Host (σ × ρ) μ where
  evalMacro name fragment := annotate (fun _ => id) (host.evalMacro name fragment)
  expand expander args := annotate note (host.expand expander args)
  run fragment := annotate (fun _ => id) (host.run fragment)

def Compiler.annotated (note : Datum → ρ → ρ) (compiler : Compiler σ μ) : Compiler (σ × ρ) μ :=
  ⟨compiler.target, compiler.host.annotated note⟩

def Session.annotated (notes : ρ) (session : Session σ μ) : Session (σ × ρ) μ :=
  ⟨(session.host, notes), session.macros⟩

def annotatedResult (notes : ρ) :
    EStateM.Result ε (Session σ μ) α → EStateM.Result ε (Session (σ × ρ) μ) α
  | .ok value session => .ok value (session.annotated notes)
  | .error error session => .error error (session.annotated notes)

def Walk.erased (walk : Walk (σ × ρ) μ) : Walk σ μ :=
  { walk with host := walk.host.1 }

structure Walk.Annotates (fits : ρ → (nesting expansions : Nat) → Prop) (walk : Walk σ μ)
    (annotated : Walk (σ × ρ) μ) : Prop where
  erased : annotated.erased = walk
  fit : fits annotated.host.2 annotated.nesting annotated.expansions

variable {fits : ρ → (nesting expansions : Nat) → Prop} {note : Datum → ρ → ρ}

theorem Emit.agree_annotate {note : α → ρ → ρ} (wrap : HostError → CompileError)
    (action : EStateM HostError σ α)
    (keeps : ∀ value notes nesting expansions, fits notes nesting expansions →
      fits (note value notes) nesting expansions) :
    Agree (Walk.Annotates fits) Eq (ofHost wrap action : Emit σ μ α)
      (ofHost wrap (Host.annotate note action)) := by
  rintro _ annotated ⟨rfl, fit⟩
  simp only [ofHost, Host.annotate, Walk.erased]
  cases action annotated.host.1 with
  | ok value state => exact .ok rfl ⟨rfl, keeps _ _ _ _ fit⟩
  | error error state => exact .error ⟨rfl, fit⟩

theorem Walk.erased_declare (walk : Walk (σ × ρ) μ) (name : String) :
    (walk.declare name).erased = walk.erased.declare name := by
  rcases walk with ⟨session, frames, expansions, nesting⟩
  cases frames with
  | nil => rfl
  | cons frame outer => rfl

theorem Compiler.lockstep_annotated (compiler : Compiler σ μ) :
    Lockstep (Walk.Annotates fits) compiler (compiler.annotated note) where
  target := rfl
  macros related := related.erased ▸ rfl
  locals related := related.erased ▸ rfl
  enterFrame related := ⟨related.erased ▸ rfl, related.fit⟩
  leaveFrame related := ⟨related.erased ▸ rfl, related.fit⟩
  declare {s t} name related := by
    rcases related with ⟨rfl, fit⟩
    refine ⟨t.erased_declare name, ?_⟩
    unfold Walk.declare
    split
    · exact fit
    · exact fit
  define name expander related := ⟨related.erased ▸ rfl, related.fit⟩
  evalMacro name fragment :=
    Emit.agree_annotate _ (compiler.host.evalMacro name fragment) fun _ _ _ _ fit => fit

end Annotation

section Notes

variable {fits : ρ → Prop} {note : Datum → ρ → ρ} {below : Compiler.Below σ μ}
  {below' : Compiler.Below (σ × ρ) μ}

abbrev Walk.Noted (fits : ρ → Prop) (walk : Walk σ μ) (noted : Walk (σ × ρ) μ) : Prop :=
  Annotates (fun notes _ _ => fits notes) walk noted

namespace Walk.Noted

variable {s : Walk σ μ} {t : Walk (σ × ρ) μ}

theorem enterList (related : Noted fits s t) : Noted fits s.enterList t.enterList :=
  ⟨related.erased ▸ rfl, related.fit⟩

theorem leaveList (related : Noted fits s t) : Noted fits s.leaveList t.leaveList :=
  ⟨related.erased ▸ rfl, related.fit⟩

theorem enterExpansion (related : Noted fits s t) : Noted fits s.enterExpansion t.enterExpansion :=
  ⟨related.erased ▸ rfl, related.fit⟩

theorem leaveExpansion (related : Noted fits s t) : Noted fits s.leaveExpansion t.leaveExpansion :=
  ⟨related.erased ▸ rfl, related.fit⟩

end Walk.Noted

namespace Compiler

variable (compiler : Compiler σ μ) (keeps : ∀ expansion notes, fits notes → fits (note expansion notes))

include keeps

theorem agree_noted_macroCall (name : String) (expander : μ) (args : List Datum)
    (agree : ∀ node, Agree (Walk.Noted fits) Eq (below node) (below' node)) :
    Agree (Walk.Noted fits) Eq (compiler.macroCall below name expander args)
      ((compiler.annotated note).macroCall below' name expander args) := by
  apply Agree.ofGet.bind
  intro s t related
  have same : s.expansions = t.expansions := related.erased ▸ rfl
  rw [same]
  split
  · exact .ofThrow _
  · apply (Emit.agree_annotate _ _ fun expansion notes _ _ => keeps expansion notes).bind
    intro expansion other same
    subst other
    exact Emit.agree_within (fun _ _ => Walk.Noted.enterExpansion)
      (fun _ _ => Walk.Noted.leaveExpansion) (agree expansion)

theorem agree_noted_list (items : List Datum)
    (agree : ∀ node, Agree (Walk.Noted fits) Eq (below node) (below' node)) :
    Agree (Walk.Noted fits) Eq (compiler.list below items)
      ((compiler.annotated note).list below' items) := by
  cases items with
  | nil => exact .ofThrow _
  | cons head args =>
    apply Agree.ofGet.bind
    intro s t related
    have same : s.macros = t.macros := related.erased ▸ rfl
    rw [same]
    cases Role.ofHead t.macros head with
    | special form => exact compiler.lockstep_annotated.special form args agree
    | macroCall name expander => exact compiler.agree_noted_macroCall keeps name expander args agree
    | application => exact compiler.lockstep_annotated.application head args agree

theorem agree_noted_step (node : Datum)
    (agree : ∀ node, Agree (Walk.Noted fits) Eq (below node) (below' node)) :
    Agree (Walk.Noted fits) Eq (compiler.step below node)
      ((compiler.annotated note).step below' node) := by
  by_cases isAtom : node.items? = none
  · rw [step_atom _ _ isAtom, step_atom _ _ isAtom]
    exact .ofPure rfl
  cases node with
  | list items =>
    apply Agree.ofGet.bind
    intro s t related
    have same : s.nesting = t.nesting := related.erased ▸ rfl
    rw [same]
    split
    · exact .ofThrow _
    · exact Emit.agree_within (fun _ _ => Walk.Noted.enterList) (fun _ _ => Walk.Noted.leaveList)
        (compiler.agree_noted_list keeps items agree)
  | _ => exact absurd rfl isAtom

/-- Taking notes changes nothing about a node, and what every note keeps stays true of them. -/
theorem agree_noted_node (levels : Nat) (node : Datum) :
    Agree (Walk.Noted fits) Eq (compiler.node levels node)
      ((compiler.annotated note).node levels node) := by
  induction levels generalizing node with
  | zero => exact .ofThrow _
  | succ levels ih => exact compiler.agree_noted_step keeps node ih

omit keeps in
theorem exists_compile_annotated (note : Datum → ρ → ρ) (form : Datum) (session : Session σ μ)
    (notes : ρ) : ∃ later, (compiler.annotated note).compile form (session.annotated notes) =
      annotatedResult later (compiler.compile form session) := by
  have agree : Agree (Walk.Noted fun _ => True) Eq (compiler.node maxLevels form)
      ((compiler.annotated note).node maxLevels form) :=
    compiler.agree_noted_node (fun _ _ _ => trivial) maxLevels form
  have outcome := agree (Walk.start session) (Walk.start (session.annotated notes)) ⟨rfl, trivial⟩
  unfold compile
  generalize compiler.node maxLevels form (Walk.start session) = plain at outcome ⊢
  generalize (compiler.annotated note).node maxLevels form _ = noted at outcome ⊢
  cases outcome with
  | ok value state =>
    subst value
    rcases state with ⟨rfl, -⟩
    exact ⟨_, rfl⟩
  | error state =>
    rcases state with ⟨rfl, -⟩
    exact ⟨_, rfl⟩

end Compiler

end Notes

end LispCompiler
