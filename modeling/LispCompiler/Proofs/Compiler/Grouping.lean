import LispCompiler.Proofs.Compiler.Definitions
import LispCompiler.Proofs.Compiler.Fragments
import LispCompiler.Proofs.Target.Grouping

namespace LispCompiler

namespace Compiler

open Emit (Ensures Yields)

open Nesting

section Plans

variable (target : Target)

/-- A construct that starts with a callee, or a receiver, and is in one piece if this is. -/
def Construct.Tied (construct : Construct) : Prop :=
  construct.scope = .shared ∧ (∃ callee rest, construct.operands = (.callee, callee) :: rest) ∧
    ∀ first fragments, Grouped first → (∀ fragment ∈ fragments, Neutral fragment) →
      Grouped (construct.finish [] (first :: fragments))

theorem tied_callPlan (head : Datum) (args : List Datum) : (callPlan target head args).Tied :=
  ⟨rfl, ⟨_, _, rfl⟩, fun _ _ => grouped_call target⟩

theorem tied_sendPlan (receiver : Datum) (method : String) (args : List Datum) :
    (sendPlan target receiver method args).Tied :=
  ⟨rfl, ⟨_, _, rfl⟩, fun _ _ grouped => grouped_send target grouped method⟩

theorem tied_dynamicSendPlan (receiver message : Datum) (args : List Datum) :
    (dynamicSendPlan target receiver message args).Tied := by
  refine ⟨rfl, ⟨_, _, rfl⟩, fun first fragments grouped each => ?_⟩
  exact grouped_dynamicSend target grouped (getLastD_neutral each)
    fun fragment member => each fragment (List.dropLast_subset _ member)

inductive Plan.Groups : Plan μ → Prop
  | refuse {error : CompileError} : Groups (.refuse error)
  | tied {construct : Construct} (tied : construct.Tied) : Groups (.construct construct)
  | sequence {nodes : List Datum} : Groups (.construct (sequencePlan target nodes))

theorem groups_send (args : List Datum) : (specialPlan target .send args : Plan μ).Groups target := by
  match args with
  | [] | [_] => exact .refuse
  | receiver :: message :: rest =>
    cases message with
    | string method => exact .tied (tied_sendPlan target receiver method rest)
    | _ => exact .tied (tied_dynamicSendPlan target receiver _ rest)

/-- A list that looks like a call at the end was one at the start, as macros are never taken out. -/
theorem groups_listPlan {macros later : MacroTable μ} {items : List Datum}
    (kept : ∀ name, macros.contains name → later.contains name) (tight : isTight later (.list items)) :
    (listPlan target macros items).Groups target := by
  cases items with
  | nil => exact .refuse
  | cons head args =>
    rcases SpecialForm.named_or_ordinary head with ⟨form, rfl⟩ | ordinary
    · rw [listPlan_special]
      simp only [isTight, SpecialForm.ofName?_name] at tight
      cases form with
      | send => exact groups_send target args
      | sequence => exact .sequence
      | _ => cases tight
    · have undefined : ∀ name, head = .symbol name → macros.get? name = none := by
        intro name same
        subst same
        simp only [isTight, SpecialForm.ofName?_eq_none ordinary, Bool.not_eq_true'] at tight
        cases found : macros.get? name with
        | none => rfl
        | some expander =>
          have defined : macros.contains name := by
            rw [MacroTable.contains_eq_isSome, found, Option.isSome_some]
          rw [kept name defined] at tight
          cases tight
      rw [listPlan_call target ordinary undefined]
      exact .tied (tied_callPlan target head args)

end Plans

theorem keyword?_eq_none {macros : MacroTable μ} {name : String} (tight : isTight macros (.symbol name)) :
    keyword? name = none := by
  unfold keyword?
  split
  · next colon => simp [isTight, colon] at tight
  · rfl

section Nodes

variable {compiler : Compiler σ μ} {below : Below σ μ}

def GroupedCode (code : Option String) : Prop :=
  ∀ fragment ∈ code, Grouped fragment

def GroupsBelow (below : Below σ μ) : Prop :=
  ∀ node, Ensures (fun code after => isTight after.macros node → GroupedCode code) (below node)

theorem ensures_operand (inside : ∀ node, Yields NeutralCode (below node)) (groups : GroupsBelow below)
    (node : Datum) : Ensures (fun code _ => Grouped code) (compiler.operand below node) := by
  intro walk text after done
  rcases bind_eq_ok_iff.mp done with ⟨fragment, middle, given, rest⟩
  cases rest
  have neutral : Neutral fragment := (yields_expr (inside node) walk _ _ given).2
  split
  · next tight =>
    rcases bind_eq_ok_iff.mp given with ⟨code, last, emitted, rest⟩
    cases rest
    cases code with
    | none => exact grouped_nil compiler.target
    | some fragment => exact groups node walk _ _ emitted tight fragment rfl
  · exact grouped_parens neutral

theorem ensures_tied {construct : Construct} (tied : construct.Tied)
    (inside : ∀ node, Yields NeutralCode (below node)) (groups : GroupsBelow below) :
    Ensures (fun code _ => GroupedCode code) (compiler.emitConstruct below construct) := by
  rcases tied with ⟨shared, ⟨callee, rest, operands⟩, ties⟩
  intro walk code after done
  simp only [emitConstruct, shared, operands, emitOperands, emitOperand, bind_assoc, pure_bind] at done
  rcases bind_eq_ok_iff.mp done with ⟨first, middle, emitted, behind⟩
  rcases bind_eq_ok_iff.mp behind with ⟨fragments, last, others, finished⟩
  cases finished
  have grouped : Grouped first := ensures_operand inside groups callee walk _ _ emitted
  have neutral := (yields_emitOperands rest inside middle _ _ others).2
  intro fragment same
  cases same
  exact ties first fragments grouped neutral

theorem ensures_groups {plan : Plan μ} (planned : plan.Groups compiler.target)
    (inside : ∀ node, Yields NeutralCode (below node)) (groups : GroupsBelow below) :
    Ensures (fun code _ => GroupedCode code) (compiler.carryOut below plan) := by
  cases planned with
  | refuse => exact .ofThrow _
  | tied tied => exact ensures_tied tied inside groups
  | @sequence nodes =>
    intro walk code after done
    rcases bind_eq_ok_iff.mp done with ⟨fragments, last, emitted, finished⟩
    cases finished
    intro fragment same
    cases same
    exact grouped_sequence _ (yields_emitOperands _ inside walk _ _ emitted).2

theorem groupsBelow_step (inside : ∀ node, Yields NeutralCode (below node))
    (groups : GroupsBelow below) : GroupsBelow (compiler.step below) := by
  intro node walk code after done tight
  cases node with
  | list items =>
    rcases step_list_eq_ok done with ⟨inner, given, rfl⟩
    have extended := (yields_carryOut (sound_listPlan _ _ _) inside _ _ _ given).1
    have planned := groups_listPlan compiler.target extended.macros tight
    exact ensures_groups planned inside groups _ _ _ given
  | symbol name =>
    rw [step_atom _ _ rfl] at done
    cases done
    intro fragment same
    cases same
    simp only [atomFragment, keyword?_eq_none tight]
    exact grouped_of_simple (ofName_simple name)
  | string text =>
    cases done
    intro fragment same
    cases same
    exact grouped_string compiler.target text
  | _ => cases tight

theorem groupsBelow_node (levels : Nat) : GroupsBelow (compiler.node levels) := by
  induction levels with
  | zero => exact fun _ => .ofThrow _
  | succ levels ih => exact groupsBelow_step (yields_node levels) ih

end Nodes

/-- From any walk, whatever macros are defined or expanded meanwhile, an operand closes its own brackets
and has no white space outside of them and of literals. -/
theorem operand_tight (compiler : Compiler σ μ) (levels : Nat) (node : Datum) (walk after : Walk σ μ)
    (code : String) (compiles : compiler.operand (compiler.node levels) node walk = .ok code after) :
    Balanced code ∧ Tight code := by
  have grouped : Grouped code :=
    ensures_operand (yields_node levels) (groupsBelow_node levels) node walk code after compiles
  exact ⟨grouped.shifts.balanced, grouped.isTight⟩

def vanishing : Compiler Unit Unit :=
  ⟨.ruby, .constant .nil⟩

/-- `(f (defmacro f (fn () (g 1 2))) "a b")` -/
def selfDefining : Datum :=
  .list [.symbol "f", .list [.symbol "defmacro", .symbol "f",
    .list [.symbol "fn", .list [], .list [.symbol "g", .integer 1, .integer 2]]], .string "a b"]

/-- The operand is a call, but has made its head a macro when it is judged. -/
theorem operand_tight_selfDefining :
    vanishing.operand (vanishing.node maxLevels) selfDefining (Walk.start (.start ())) =
      .ok "(f.(nil, \"a b\"))" (Walk.start ⟨(), .define .empty "f" ()⟩) ∧
    Balanced "(f.(nil, \"a b\"))" ∧ Tight "(f.(nil, \"a b\"))" := by
  have compiles : vanishing.operand (vanishing.node maxLevels) selfDefining (Walk.start (.start ())) =
      .ok "(f.(nil, \"a b\"))" (Walk.start ⟨(), .define .empty "f" ()⟩) := by
    rfl
  exact ⟨compiles, operand_tight vanishing maxLevels selfDefining _ _ _ compiles⟩

end Compiler

end LispCompiler
