import LispCompiler.Proofs.Compiler.Expansion

/-!
Planning a special form with other nodes in its compiled positions. Main statement: the plan is the
same but for its operands, as long as the nodes at whose shape the compiler looks keep it.
-/

namespace LispCompiler

namespace Compiler

def Construct.map (f : Datum → Datum) (construct : Construct) : Construct :=
  { construct with operands := construct.operands.map fun (use, node) => (use, f node) }

structure Replanned (μ : Type) (target : Target) (f : Datum → Datum) (form : SpecialForm)
    (args parts : List Datum) : Prop where
  compiled : form.compiled? (form.refill args (parts.map f)) = some (parts.map f)
  planned : ∃ construct, specialPlan target form args = (.construct construct : Plan μ) ∧
    specialPlan target form (form.refill args (parts.map f)) = (.construct (construct.map f) : Plan μ) ∧
    ∀ node, (.callee, node) ∈ construct.operands →
      node ∈ (Datum.list (.symbol form.name :: args)).shaped

section Refill

variable {μ : Type} (target : Target) {form : SpecialForm} {args parts nodes : List Datum}
  {head params datum receiver message clause : Datum} (f : Datum → Datum)

theorem callPlan_map : callPlan target (f head) (args.map f) = (callPlan target head args).map f := by
  simp [callPlan, Construct.map, Function.comp_def]

theorem replanned_function (fits : SpecialForm.function.compiled? args = some parts) :
    Replanned μ target f .function args parts := by
  cases args with
  | nil => cases fits
  | cons params nodes =>
    simp only [SpecialForm.compiled?, Option.ite_none_right_eq_some, Option.some.injEq] at fits
    rcases fits with ⟨listed, rfl⟩
    have isSome := listed
    rw [Parameters.any_isParameterList] at isSome
    rcases Option.isSome_iff_exists.mp isSome with ⟨names, found⟩
    refine ⟨if_pos listed, functionPlan target names nodes, ?_, ?_, ?_⟩
    · simp only [specialPlan, found]
    · simp [specialPlan, SpecialForm.refill, found, functionPlan, Construct.map, Function.comp_def]
    · simp [functionPlan]

theorem specialPlan_dynamicSend (dynamic : ∀ text, message ≠ .string text) :
    specialPlan target .send (receiver :: message :: args) =
      (.construct (dynamicSendPlan target receiver message args) : Plan μ) := by
  cases message with
  | string text => exact absurd rfl (dynamic text)
  | _ => rfl

theorem compiled?_dynamicSend (dynamic : ∀ text, message ≠ .string text) :
    SpecialForm.send.compiled? (receiver :: message :: args) = some (receiver :: message :: args) := by
  cases message with
  | string text => exact absurd rfl (dynamic text)
  | _ => rfl

theorem refill_dynamicSend (dynamic : ∀ text, message ≠ .string text) :
    SpecialForm.send.refill (receiver :: message :: args) parts = parts := by
  cases message with
  | string text => exact absurd rfl (dynamic text)
  | _ => rfl

theorem ne_string_of_similar (similar : message.Similar (f message))
    (dynamic : ∀ text, message ≠ .string text) (text : String) : f message ≠ .string text := by
  cases message with
  | list items =>
    have isList := similar.list rfl
    intro same
    rw [same] at isList
    cases isList
  | _ =>
    rw [similar.atom rfl]
    exact dynamic text

theorem replanned_dynamicSend (dynamic : ∀ text, message ≠ .string text)
    (similar : message.Similar (f message)) :
    Replanned μ target f .send (receiver :: message :: args) (receiver :: message :: args) := by
  have keeps := ne_string_of_similar f similar dynamic
  constructor
  · rw [refill_dynamicSend dynamic]
    exact compiled?_dynamicSend keeps
  · refine ⟨_, specialPlan_dynamicSend target dynamic, ?_, ?_⟩
    · rw [refill_dynamicSend dynamic, List.map_cons, List.map_cons, specialPlan_dynamicSend target keeps]
      simp [dynamicSendPlan, Construct.map, Function.comp_def]
    · intro node isCallee
      simp_all [dynamicSendPlan, Datum.shaped, Datum.symbol?, SpecialForm.name, SpecialForm.ofName?]

theorem replanned_send {method : String} :
    Replanned μ target f .send (receiver :: .string method :: args) (receiver :: args) := by
  refine ⟨rfl, sendPlan target receiver method args, rfl, ?_, ?_⟩
  · simp [specialPlan, SpecialForm.refill, sendPlan, Construct.map, Function.comp_def]
  · intro node isCallee
    simp_all [sendPlan, Datum.shaped, Datum.symbol?, SpecialForm.name, SpecialForm.ofName?]

theorem replanned_quote (fits : SpecialForm.quote.compiled? args = some parts) :
    Replanned μ target f .quote args parts := by
  match args with
  | [datum] =>
    have whole := fits
    simp only [SpecialForm.compiled?, Option.ite_none_right_eq_some, Option.some.injEq] at fits
    rcases fits with ⟨shallow, rfl⟩
    have planned : specialPlan target .quote [datum] = (.construct (quotePlan target datum) : Plan μ) :=
      if_neg (Nat.not_lt.mpr shallow)
    refine ⟨whole, quotePlan target datum, planned, planned, ?_⟩
    simp [quotePlan]
  | [] | _ :: _ :: _ => cases fits

theorem replanned_guard (fits : SpecialForm.guard.compiled? args = some parts) :
    Replanned μ target f .guard args parts := by
  match args with
  | [node, clause] =>
    simp only [SpecialForm.compiled?] at fits
    split at fits
    · cases fits
      refine ⟨rfl, _, rfl, rfl, ?_⟩
      simp [guardPlan]
    · cases fits
  | [] | [_] | _ :: _ :: _ :: _ => cases fits

theorem replanned_block (fits : SpecialForm.block.compiled? args = some parts) :
    Replanned μ target f .block args parts := by
  match args with
  | [callee] =>
    cases fits
    exact ⟨rfl, _, rfl, rfl, by simp [blockPlan]⟩
  | [] | _ :: _ :: _ => cases fits

theorem replanned_conditional (fits : SpecialForm.conditional.compiled? args = some parts) :
    Replanned μ target f .conditional args parts := by
  match args with
  | [predicate, thenArm, elseArm] =>
    cases fits
    exact ⟨rfl, _, rfl, rfl, by simp [conditionalPlan]⟩
  | [] | [_] | [_, _] | _ :: _ :: _ :: _ :: _ => cases fits

theorem replanned_apply (fits : SpecialForm.apply.compiled? args = some parts) :
    Replanned μ target f .apply args parts := by
  match args with
  | [callee, list] =>
    cases fits
    refine ⟨rfl, _, rfl, rfl, ?_⟩
    intro node isCallee
    simp_all [applyPlan, Datum.shaped, Datum.symbol?, SpecialForm.name, SpecialForm.ofName?]
  | [] | [_] | _ :: _ :: _ :: _ => cases fits

theorem replanned_define (fits : SpecialForm.define.compiled? args = some parts) :
    Replanned μ target f .define args parts := by
  match args with
  | [.symbol name, value] =>
    cases fits
    exact ⟨rfl, _, rfl, rfl, by simp [definePlan]⟩
  | [.list _, _] | [.integer _, _] | [.float _, _] | [.string _, _] | [.bool _, _] | [.nil, _]
  | [] | [_] | _ :: _ :: _ :: _ => cases fits

theorem replanned_sends (fits : SpecialForm.send.compiled? args = some parts)
    (similar : ∀ operand ∈ args.take 2, operand.Similar (f operand)) :
    Replanned μ target f .send args parts := by
  match args with
  | receiver :: message :: rest =>
    by_cases static : ∃ method, message = .string method
    · rcases static with ⟨method, rfl⟩
      cases fits
      exact replanned_send target f
    · have dynamic : ∀ text, message ≠ .string text := fun text same => static ⟨text, same⟩
      rw [compiled?_dynamicSend dynamic] at fits
      cases fits
      exact replanned_dynamicSend target f dynamic (similar message (by simp))
  | [] | [_] => cases fits

theorem specialPlan_refill (noTemplate : form ≠ .quasiquote) (noMacro : form ≠ .defineMacro)
    (fits : form.compiled? args = some parts)
    (similar : ∀ operand ∈ (Datum.list (.symbol form.name :: args)).shaped,
      operand.Similar (f operand)) : Replanned μ target f form args parts := by
  cases form with
  | apply => exact replanned_apply target f fits
  | block => exact replanned_block target f fits
  | define => exact replanned_define target f fits
  | defineMacro => exact absurd rfl noMacro
  | sequence =>
    cases fits
    refine ⟨rfl, _, rfl, ?_, by simp [sequencePlan]⟩
    simp [specialPlan, SpecialForm.refill, sequencePlan, Construct.map, Function.comp_def]
  | function => exact replanned_function target f fits
  | conditional => exact replanned_conditional target f fits
  | send => exact replanned_sends target f fits similar
  | quasiquote => exact absurd rfl noTemplate
  | quote => exact replanned_quote target f fits
  | guard => exact replanned_guard target f fits

end Refill

end Compiler

end LispCompiler
