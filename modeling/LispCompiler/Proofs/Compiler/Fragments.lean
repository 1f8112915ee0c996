import LispCompiler.Proofs.Compiler.Lines

/-!
What compiling gives and leaves, from any walk at all. Main statement: the fragment of a node closes
all brackets and literals that it opens. Meanwhile only names made of symbols are added to the innermost
frame, the frames around it stay as they are, and a macro that is defined stays defined.
-/

namespace LispCompiler

theorem MacroTable.contains_define {table : MacroTable μ} {name other : String} {expander : μ}
    (defined : table.contains other) : (table.define name expander).contains other := by
  simp only [contains, define] at defined ⊢
  simp [Std.TreeMap.contains_insert, defined]

structure Walk.Extends (before after : Walk σ μ) : Prop where
  outer : after.frames.tail = before.frames.tail
  named : ∀ name ∈ after.locals, name ∈ before.locals ∨ Identifier.IsName name
  macros : ∀ name, before.macros.contains name → after.macros.contains name

namespace Walk.Extends

variable {before middle after : Walk σ μ}

theorem refl (walk : Walk σ μ) : Extends walk walk :=
  ⟨rfl, fun _ => .inl, fun _ => id⟩

theorem trans (first : Extends before middle) (second : Extends middle after) : Extends before after where
  outer := second.outer.trans first.outer
  named name member := by
    rcases second.named name member with earlier | isName
    · exact first.named name earlier
    · exact .inr isName
  macros name defined := second.macros name (first.macros name defined)

theorem congr {before' after' : Walk σ μ} (extended : Extends before after)
    (frames : before'.frames = before.frames) (macros : before'.macros = before.macros)
    (frames' : after'.frames = after.frames) (macros' : after'.macros = after.macros) :
    Extends before' after' where
  outer := by rw [frames, frames', extended.outer]
  named := by
    simp only [locals, frames, frames']
    exact extended.named
  macros := by
    rw [macros, macros']
    exact extended.macros

theorem declare (walk : Walk σ μ) {name : String} (isName : Identifier.IsName name) :
    Extends walk (walk.declare name) := by
  rcases walk with ⟨session, frames, expansions, nesting⟩
  cases frames with
  | nil => exact refl _
  | cons frame outer =>
    refine ⟨rfl, ?_, fun _ => id⟩
    intro other member
    change other ∈ (if frame.contains name then frame else frame ++ [name]) at member
    split at member
    · exact .inl member
    · rcases List.mem_append.mp member with earlier | added
      · exact .inl earlier
      · rw [List.mem_singleton.mp added]
        exact .inr isName

/-- What is bound in a frame of its own is gone with the frame. -/
theorem leaveFrame (inside : Extends before.enterFrame after) : Extends before after.leaveFrame where
  outer := congrArg List.tail inside.outer
  named name member := by
    have same : after.leaveFrame.locals = before.locals := congrArg (List.headD · []) inside.outer
    exact .inl (same ▸ member)
  macros := inside.macros

end Walk.Extends

namespace Emit

theorem within_eq_ok_iff {enter leave : Walk σ μ → Walk σ μ} {x : Emit σ μ α} {walk after : Walk σ μ}
    {value : α} : within enter leave x walk = .ok value after ↔
      ∃ inner, x (enter walk) = .ok value inner ∧ leave inner = after := by
  unfold within
  cases x (enter walk) with
  | ok result inner => simp
  | error error inner => simp

def Yields (good : α → Prop) (x : Emit σ μ α) : Prop :=
  ∀ walk value after, x walk = .ok value after → walk.Extends after ∧ good value

namespace Yields

variable {good : α → Prop} {results : β → Prop}

theorem ofPure {value : α} (held : good value) : Yields good (pure value : Emit σ μ α) := by
  intro walk _ _ done
  cases done
  exact ⟨.refl walk, held⟩

theorem ofThrow (error : CompileError) : Yields good (throw error : Emit σ μ α) := by
  intro walk _ _ done
  cases done

theorem ofGet : Yields (fun _ => True) (get : Emit σ μ (Walk σ μ)) := by
  intro walk _ _ done
  cases done
  exact ⟨.refl _, trivial⟩

theorem ofModify {f : Walk σ μ → Walk σ μ} (extended : ∀ walk : Walk σ μ, walk.Extends (f walk)) :
    Yields (fun _ => True) (modify f : Emit σ μ PUnit) := by
  intro walk _ _ done
  cases done
  exact ⟨extended walk, trivial⟩

theorem ofHost (wrap : HostError → CompileError) (action : EStateM HostError σ α) :
    Yields (fun _ => True) (ofHost wrap action : Emit σ μ α) := by
  intro walk value after done
  unfold Emit.ofHost at done
  split at done
  · cases done
    exact ⟨(Walk.Extends.refl walk).congr rfl rfl rfl rfl, trivial⟩
  · cases done

theorem bind {x : Emit σ μ α} {f : α → Emit σ μ β} (first : Yields good x)
    (next : ∀ value, good value → Yields results (f value)) : Yields results (x >>= f) := by
  intro walk result after done
  rcases bind_eq_ok_iff.mp done with ⟨value, middle, given, rest⟩
  rcases first walk value middle given with ⟨extended, held⟩
  rcases next value held middle result after rest with ⟨further, holds⟩
  exact ⟨extended.trans further, holds⟩

theorem within {enter leave : Walk σ μ → Walk σ μ} {x : Emit σ μ α}
    (bracket : ∀ before after : Walk σ μ, (enter before).Extends after → before.Extends (leave after))
    (inside : Yields good x) : Yields good (within enter leave x) := by
  intro walk value after done
  rcases within_eq_ok_iff.mp done with ⟨inner, given, rfl⟩
  rcases inside _ _ _ given with ⟨extended, held⟩
  exact ⟨bracket _ _ extended, held⟩

theorem withinFrame {x : Emit σ μ α} (inside : Yields good x) :
    Yields (fun result : α × List String => good result.1 ∧ ∀ name ∈ result.2, Identifier.IsName name)
      (Emit.within Walk.enterFrame Walk.leaveFrame do return (← x, (← get).locals)) := by
  intro walk result after done
  rcases within_eq_ok_iff.mp done with ⟨inner, given, rfl⟩
  rcases bind_eq_ok_iff.mp given with ⟨value, last, emitted, rest⟩
  cases rest
  rcases inside _ _ _ emitted with ⟨extended, held⟩
  refine ⟨extended.leaveFrame, held, fun name member => ?_⟩
  rcases extended.named name member with earlier | isName
  · cases earlier
  · exact isName

end Yields

end Emit

namespace Compiler

open Nesting

section Constructs

structure Construct.Sound (construct : Construct) : Prop where
  named : ∀ name, construct.scope = .binding name → Identifier.IsName name
  neutral : ∀ locals fragments, (∀ name ∈ locals, Identifier.IsName name) →
    (∀ fragment ∈ fragments, Neutral fragment) → Neutral (construct.finish locals fragments)

variable (target : Target)

theorem neutral_empty : Neutral "" :=
  fun _ => rfl

theorem neutral_of_isName {name : String} (isName : Identifier.IsName name) : Neutral name := by
  rcases isName with ⟨source, rfl⟩
  exact neutral_ofName source

theorem sound_applyPlan (function list : Datum) : (applyPlan target function list).Sound where
  named _ other := by cases other
  neutral _ fragments _ each := by
    simp only [applyPlan]
    split
    · simp only [List.forall_mem_cons] at each
      exact neutral_apply target each.1 each.2.1
    · exact neutral_empty

theorem sound_blockPlan (function : Datum) : (blockPlan target function).Sound where
  named _ other := by cases other
  neutral _ fragments _ each := by
    simp only [blockPlan]
    split
    · simp only [List.forall_mem_cons] at each
      exact neutral_block target each.1
    · exact neutral_empty

theorem sound_definePlan (name : String) (value : Datum) : (definePlan target name value).Sound where
  named _ same := by
    cases same
    exact ⟨name, rfl⟩
  neutral _ fragments _ each := by
    simp only [definePlan]
    split
    · simp only [List.forall_mem_cons] at each
      exact neutral_define target (neutral_ofName name) each.1
    · exact neutral_empty

theorem sound_sequencePlan (nodes : List Datum) : (sequencePlan target nodes).Sound where
  named _ other := by cases other
  neutral _ _ _ each := neutral_sequence target each

theorem sound_functionPlan {params : Datum} {names : Parameters}
    (found : Parameters.ofDatum? params = some names) (nodes : List Datum) :
    (functionPlan target names nodes).Sound where
  named _ other := by cases other
  neutral locals _ named each := by
    rcases Parameters.ofDatum?_sources found with ⟨fixed, rest, rfl⟩
    refine neutral_lambda target (neutral_names fixed) ?_ ?_ (neutral_sequence target each)
    · simpa using fun source _ => neutral_ofName source
    · exact fun name member => neutral_of_isName (named name (List.mem_of_mem_filter member))

theorem sound_conditionalPlan (predicate thenArm elseArm : Datum) :
    (conditionalPlan predicate thenArm elseArm).Sound where
  named _ other := by cases other
  neutral _ fragments _ each := by
    simp only [conditionalPlan]
    split
    · simp only [List.forall_mem_cons] at each
      exact neutral_conditional each.1 each.2.1 each.2.2.1
    · exact neutral_empty

theorem sound_sendPlan (receiver : Datum) (method : String) (args : List Datum) :
    (sendPlan target receiver method args).Sound where
  named _ other := by cases other
  neutral _ fragments _ each := by
    simp only [sendPlan]
    split
    · rw [List.forall_mem_cons] at each
      exact neutral_send target each.1 method each.2
    · exact neutral_empty

theorem getLastD_neutral {fragments : List String} (each : ∀ fragment ∈ fragments, Neutral fragment) :
    Neutral (fragments.getLastD "") := by
  cases fragments with
  | nil => exact neutral_empty
  | cons first rest =>
    rw [List.getLastD_cons]
    exact each _ List.getLastD_mem_cons

theorem sound_dynamicSendPlan (receiver message : Datum) (args : List Datum) :
    (dynamicSendPlan target receiver message args).Sound where
  named _ other := by cases other
  neutral _ fragments _ each := by
    simp only [dynamicSendPlan]
    split
    · rw [List.forall_mem_cons] at each
      exact neutral_dynamicSend target each.1 (getLastD_neutral each.2)
        fun fragment member => each.2 fragment (List.dropLast_subset _ member)
    · exact neutral_empty

theorem sound_quotePlan (datum : Datum) : (quotePlan target datum).Sound where
  named _ other := by cases other
  neutral _ _ _ _ := by
    have written : Neutral (target.literal datum) :=
      Code.render_literal target datum ▸ neutral_render target (.literal datum)
    exact written

theorem sound_guardPlan (node : Datum) (binding : String) (handler : Datum) :
    (guardPlan target node binding handler).Sound where
  named _ other := by cases other
  neutral _ fragments _ each := by
    simp only [guardPlan]
    split
    · simp only [List.forall_mem_cons] at each
      exact neutral_guard target each.1 (neutral_ofName binding) each.2.1
    · exact neutral_empty

theorem sound_callPlan (head : Datum) (args : List Datum) : (callPlan target head args).Sound where
  named _ other := by cases other
  neutral _ fragments _ each := by
    simp only [callPlan]
    split
    · rw [List.forall_mem_cons] at each
      exact neutral_call target each.1 each.2
    · exact neutral_empty

def Plan.Sound : Plan μ → Prop
  | .construct built => built.Sound
  | _ => True

theorem sound_specialPlan (form : SpecialForm) (args : List Datum) :
    (specialPlan target form args : Plan μ).Sound := by
  unfold specialPlan
  split
  · exact sound_applyPlan target _ _
  · trivial
  · exact sound_blockPlan target _
  · trivial
  · split
    · exact sound_definePlan target _ _
    · trivial
  · trivial
  · split <;> trivial
  · trivial
  · exact sound_sequencePlan target _
  · split
    · trivial
    · next found => exact sound_functionPlan target found _
  · trivial
  · exact sound_conditionalPlan _ _ _
  · trivial
  · exact sound_sendPlan target _ _ _
  · exact sound_dynamicSendPlan target _ _ _
  · trivial
  · split
    · trivial
    · split <;> trivial
  · trivial
  · split
    · trivial
    · exact sound_quotePlan target _
  · trivial
  · split
    · trivial
    · exact sound_guardPlan target _ _ _
  · trivial

theorem sound_listPlan (macros : MacroTable μ) (items : List Datum) :
    (listPlan target macros items).Sound := by
  unfold listPlan
  split
  · trivial
  · split
    · exact sound_specialPlan target _ _
    · trivial
    · exact sound_callPlan target _ _

end Constructs

section Nodes

open Emit (Yields)

variable {compiler : Compiler σ μ} {below : Below σ μ}

def NeutralCode (code : Option String) : Prop :=
  ∀ fragment ∈ code, Neutral fragment

theorem NeutralCode.ofNone : NeutralCode none := by
  intro _ found
  cases found

theorem NeutralCode.ofSome {fragment : String} (neutral : Neutral fragment) :
    NeutralCode (some fragment) := by
  intro _ same
  cases same
  exact neutral

theorem NeutralCode.getD {code : Option String} {other : String} (neutral : NeutralCode code)
    (otherwise : Neutral other) : Neutral (code.getD other) := by
  cases code with
  | none => exact otherwise
  | some fragment => exact neutral fragment rfl

theorem yields_expr {node : Datum} (inside : Yields NeutralCode (below node)) :
    Yields Neutral (compiler.expr below node) :=
  inside.bind fun _ neutral => .ofPure (neutral.getD (neutral_nil _))

theorem yields_operand {node : Datum} (inside : Yields NeutralCode (below node)) :
    Yields Neutral (compiler.operand below node) := by
  refine (yields_expr inside).bind fun code neutral => Yields.ofGet.bind fun walk _ => .ofPure ?_
  split
  · exact neutral
  · exact neutral_parens neutral

theorem yields_emitOperand (use : Use) {node : Datum} (inside : Yields NeutralCode (below node)) :
    Yields (∀ fragment ∈ ·, Neutral fragment) (compiler.emitOperand below use node) := by
  cases use with
  | value =>
    exact (yields_expr inside).bind fun _ neutral => .ofPure (List.forall_mem_singleton.mpr neutral)
  | callee =>
    exact (yields_operand inside).bind fun _ neutral => .ofPure (List.forall_mem_singleton.mpr neutral)
  | statement =>
    exact inside.bind fun _ neutral => .ofPure fun fragment member =>
      neutral fragment (Option.mem_toList.mp member)

theorem yields_emitOperands (operands : List (Use × Datum))
    (inside : ∀ node, Yields NeutralCode (below node)) :
    Yields (∀ fragment ∈ ·, Neutral fragment) (compiler.emitOperands below operands) := by
  induction operands with
  | nil => exact .ofPure (List.forall_mem_nil _)
  | cons operand operands ih =>
    exact (yields_emitOperand operand.1 (inside operand.2)).bind fun _ first =>
      ih.bind fun _ rest => .ofPure (List.forall_mem_append.mpr ⟨first, rest⟩)

theorem yields_emitConstruct {construct : Construct} (sound : construct.Sound)
    (inside : ∀ node, Yields NeutralCode (below node)) :
    Yields NeutralCode (compiler.emitConstruct below construct) := by
  have operands : Yields (∀ fragment ∈ ·, Neutral fragment)
      (compiler.emitOperands below construct.operands) := yields_emitOperands _ inside
  have alone : ∀ name ∈ ([] : List String), Identifier.IsName name := List.forall_mem_nil _
  unfold emitConstruct
  split
  · exact operands.bind fun _ each => .ofPure (.ofSome (sound.neutral _ _ alone each))
  · exact operands.withinFrame.bind fun _ each => .ofPure (.ofSome (sound.neutral _ _ each.2 each.1))
  · next name binds =>
    have declared : Yields (fun _ => True) (modify (Walk.declare name) : Emit σ μ PUnit) :=
      .ofModify fun walk => .declare walk (sound.named name binds)
    exact operands.bind fun _ each => declared.bind fun _ _ =>
      .ofPure (.ofSome (sound.neutral _ _ alone each))

theorem yields_defineMacro (name : String) {function : Datum}
    (inside : Yields NeutralCode (below function)) :
    Yields (fun _ => True) (compiler.defineMacro below name function) := by
  refine (yields_expr inside).bind fun fragment _ => (Yields.ofHost _ _).bind fun expander _ => ?_
  exact .ofModify fun walk => ⟨rfl, fun _ => .inl, fun _ => MacroTable.contains_define⟩

theorem yields_macroCall (name : String) (expander : μ) (args : List Datum)
    (inside : ∀ node, Yields NeutralCode (below node)) :
    Yields NeutralCode (compiler.macroCall below name expander args) := by
  refine Yields.ofGet.bind fun walk _ => ?_
  split
  · exact .ofThrow _
  · refine (Yields.ofHost _ _).bind fun expansion _ => ?_
    exact (inside expansion).within fun _ _ extended => extended.congr rfl rfl rfl rfl

theorem yields_carryOut {plan : Plan μ} (sound : plan.Sound)
    (inside : ∀ node, Yields NeutralCode (below node)) :
    Yields NeutralCode (compiler.carryOut below plan) := by
  cases plan with
  | refuse error => exact .ofThrow error
  | become node => exact inside node
  | defineMacro name function =>
    exact (yields_defineMacro name (inside function)).bind fun _ _ => .ofPure .ofNone
  | expand name expander args => exact yields_macroCall name expander args inside
  | construct construct => exact yields_emitConstruct sound inside

theorem neutral_atomFragment (target : Target) (node : Datum) : Neutral (atomFragment target node) := by
  cases node with
  | list items => exact neutral_empty
  | symbol name =>
    simp only [atomFragment]
    split
    · exact neutral_symbol target _
    · exact neutral_ofName name
  | integer value => exact neutral_render target (.integer value)
  | float value => exact neutral_render target (.float value)
  | string text => exact neutral_string target text
  | bool value => exact neutral_bool value
  | nil => exact neutral_nil target

theorem step_list_eq_ok {items : List Datum} {walk after : Walk σ μ} {code : Option String}
    (done : compiler.step below (.list items) walk = .ok code after) :
    ∃ inner, compiler.carryOut below (listPlan compiler.target walk.macros items) walk.enterList =
      .ok code inner ∧ inner.leaveList = after := by
  rcases Nat.lt_or_ge walk.nesting maxNesting with room | full
  · rw [step_list _ _ room] at done
    exact Emit.within_eq_ok_iff.mp done
  · rw [step_list_full _ _ full] at done
    cases done

theorem yields_step (node : Datum) (inside : ∀ node, Yields NeutralCode (below node)) :
    Yields NeutralCode (compiler.step below node) := by
  by_cases isAtom : node.items? = none
  · rw [step_atom _ _ isAtom]
    exact .ofPure (.ofSome (neutral_atomFragment _ node))
  cases node with
  | list items =>
    intro walk code after done
    rcases step_list_eq_ok done with ⟨inner, given, rfl⟩
    rcases yields_carryOut (sound_listPlan _ _ _) inside _ _ _ given with ⟨extended, neutral⟩
    exact ⟨extended.congr rfl rfl rfl rfl, neutral⟩
  | _ => exact absurd rfl isAtom

/-- Wherever a node is compiled, its code closes what it opens, and the walk is extended. -/
theorem yields_node (levels : Nat) (node : Datum) : Yields NeutralCode (compiler.node levels node) := by
  induction levels generalizing node with
  | zero => exact .ofThrow _
  | succ levels ih => exact yields_step node ih

end Nodes

end Compiler

end LispCompiler
