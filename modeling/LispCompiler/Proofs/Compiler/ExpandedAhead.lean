import Mathlib
import LispCompiler.Proofs.Compiler.Mirroring

namespace LispCompiler

def MacroTable.expanders (macros : MacroTable μ) (expand : μ → List Datum → Except HostError Datum) :
    Expanders :=
  fun name => (macros.get? name).map expand

def headIsTight (macros : MacroTable μ) : Option String → Bool
  | none => true
  | some head =>
    match SpecialForm.ofName? head with
    | some .send | some .sequence => true
    | some _ => false
    | none => !macros.contains head

theorem isTight_list (macros : MacroTable μ) (items : List Datum) :
    isTight macros (.list items) = headIsTight macros (Datum.list items).head? := by
  match items with
  | .symbol _ :: _ => rfl
  | [] | .list _ :: _ | .integer _ :: _ | .float _ :: _ | .string _ :: _ | .bool _ :: _ | .nil :: _ => rfl

section Tight

variable {macros : MacroTable μ} {expand : μ → List Datum → Except HostError Datum} {node other : Datum}

theorem headIsTight_eq (stays : ¬(macros.expanders expand).givesWay node) :
    headIsTight macros node.head? = headIsTight (.empty : MacroTable μ) node.head? := by
  cases headed : node.head? with
  | none => rfl
  | some name =>
    cases special : SpecialForm.ofName? name with
    | some form => cases form <;> simp only [headIsTight, special]
    | none =>
      have undefined : macros.contains name = false := by
        cases found : macros.get? name with
        | none => simpa [MacroTable.get?, MacroTable.contains] using congrArg Option.isSome found
        | some expander =>
          refine absurd ?_ stays
          simp [Expanders.givesWay, Expanders.isCall, headed, special, MacroTable.expanders, found]
      have empty : (MacroTable.empty : MacroTable μ).contains name = false := by
        simp [MacroTable.contains, MacroTable.empty]
      simp only [headIsTight, special, undefined, empty]

/-- The expanded form of a node that does not give way is just as tight. -/
theorem isTight_similar (stays : ¬(macros.expanders expand).givesWay node)
    (similar : node.Similar other) : isTight macros node = isTight (.empty : MacroTable μ) other := by
  cases node with
  | list items =>
    have isList := similar.list rfl
    cases other with
    | list others => rw [isTight_list, isTight_list, similar.head, headIsTight_eq stays]
    | _ => cases isList
  | _ =>
    rw [similar.atom rfl]
    rfl

end Tight

def Host.ExpandsBy (host : Host σ μ) (expand : μ → List Datum → Except HostError Datum) : Prop :=
  ∀ expander args state, host.expand expander args state =
    match expand expander args with
    | .ok node => .ok node state
    | .error error => .error error state

namespace Compiler

variable {compiler : Compiler σ μ} {macros : MacroTable μ} {host : σ} {outer inner : Nat}
  {below below' : Below σ μ} {holds : Prop} {f : Datum → Datum}
  {expand : μ → List Datum → Except HostError Datum} {items others : List Datum}

theorem mirrors_full (full : maxNesting ≤ outer) {y : Emit σ μ (Option String)} :
    Mirrors macros host outer inner holds (compiler.step below (.list items)) y := by
  intro walk other twin value after done
  rw [step_list_full _ _ (twin.outer.symm ▸ full)] at done
  cases done

theorem mirrors_lists (shallow : outer < maxNesting) (deeper : inner ≤ outer)
    (inside : Mirrors macros host (outer + 1) (inner + 1) holds
      (compiler.carryOut below (listPlan compiler.target macros items))
      (compiler.carryOut below' (listPlan compiler.target .empty others))) :
    Mirrors macros host outer inner holds (compiler.step below (.list items))
      (compiler.step below' (.list others)) := by
  intro walk other twin value after done
  have room : other.nesting < maxNesting := by
    rw [twin.inner]
    omega
  rw [step_list _ _ (twin.outer.symm ▸ shallow), twin.macros] at done
  rw [step_list _ _ room, twin.emptied]
  exact inside.within (fun _ _ => Walk.Twin.enterLists) (fun _ _ => Walk.Twin.leaveLists) walk other
    twin value after done

theorem mirrors_list (shallow : outer < maxNesting) {y : Emit σ μ (Option String)}
    (inside : Mirrors macros host (outer + 1) inner holds
      (compiler.carryOut below (listPlan compiler.target macros items)) y) :
    Mirrors macros host outer inner holds (compiler.step below (.list items)) y := by
  intro walk other twin value after done
  rw [step_list _ _ (twin.outer.symm ▸ shallow), twin.macros] at done
  exact inside.withinFirst (fun _ _ => Walk.Twin.enterList) (fun _ _ => Walk.Twin.leaveList) walk other
    twin value after done

section Calls

variable {name : String} {expander : μ} {args : List Datum}

theorem macroCall_eq (pure : compiler.host.ExpandsBy expand) (walk : Walk σ μ) :
    compiler.macroCall below name expander args walk =
      if maxExpansions ≤ walk.expansions then .error (.expansionTooDeep name) walk
      else
        match expand expander args with
        | .ok expansion =>
          Emit.within Walk.enterExpansion Walk.leaveExpansion (below expansion) walk
        | .error error => .error (.macroExpansion name error) walk := by
  change (if maxExpansions ≤ walk.expansions then throw (.expansionTooDeep name)
    else do
      let expansion ← Emit.ofHost (.macroExpansion name) (compiler.host.expand expander args)
      Emit.within Walk.enterExpansion Walk.leaveExpansion (below expansion) : Emit σ μ _) walk = _
  by_cases deep : maxExpansions ≤ walk.expansions
  · rw [if_pos deep, if_pos deep]
    rfl
  · rw [if_neg deep, if_neg deep]
    change EStateM.bind _ _ walk = _
    simp only [EStateM.bind, Emit.ofHost, pure expander args walk.host]
    cases expand expander args <;> rfl

theorem mirrors_macroCall (pure : compiler.host.ExpandsBy expand) {y : Emit σ μ (Option String)}
    (inside : ∀ expansion, expand expander args = .ok expansion →
      Mirrors macros host outer inner holds (below expansion) y) :
    Mirrors macros host (outer + 1) inner holds (compiler.macroCall below name expander args) y := by
  intro walk other twin value after done
  rw [macroCall_eq pure] at done
  by_cases deep : maxExpansions ≤ walk.expansions
  · rw [if_pos deep] at done
    cases done
  · rw [if_neg deep] at done
    cases expands : expand expander args with
    | error error => simp [expands] at done
    | ok expansion =>
      rw [expands] at done
      exact (inside expansion expands).withinFirst (fun _ _ => Walk.Twin.enterExpansion)
        (fun _ _ => Walk.Twin.leaveExpansion) walk other twin value after done

end Calls

theorem mirrors_template {args : List Datum} {y : Emit σ μ (Option String)}
    (inside : ∀ part, SpecialForm.quasiquote.compiled? args = some [part] →
      Mirrors macros host outer inner holds (below part) y) :
    Mirrors macros host outer inner holds
      (compiler.carryOut below (specialPlan compiler.target .quasiquote args)) y := by
  match args with
  | [template] =>
    simp only [specialPlan]
    by_cases deep : maxNesting < template.depth
    · rw [if_pos deep]
      exact .ofThrow
    · rw [if_neg deep]
      cases expands : Template.expand template with
      | ok expanded =>
        apply inside expanded
        exact SpecialForm.quasiquote_compiled?.mpr
          ⟨template, expanded, rfl, Nat.not_lt.mp deep, expands, rfl⟩
      | error flaw => exact .ofThrow
  | [] | _ :: _ :: _ => exact .ofThrow

theorem mirrors_replaced (pure : compiler.host.ExpandsBy expand) (shallow : outer < maxNesting)
    (deeper : inner ≤ outer) (givesWay : (macros.expanders expand).givesWay (.list items))
    {y : Emit σ μ (Option String)}
    (inside : ∀ part level, (macros.expanders expand).parts? (.list items) = some [part] →
      level ≤ maxNesting → inner ≤ level → Mirrors macros host level inner holds (below part) y) :
    Mirrors macros host outer inner holds (compiler.step below (.list items)) y := by
  apply mirrors_list shallow
  rcases Expanders.givesWay_cases givesWay with ⟨args, rfl⟩ | ⟨name, args, run, rfl, ordinary, defined⟩
  · rw [listPlan_special]
    apply mirrors_template
    intro part compiled
    apply inside part (outer + 1) _ shallow (by omega)
    rw [Expanders.parts?_special, compiled]
  · rcases Option.map_eq_some_iff.mp defined with ⟨expander, found, rfl⟩
    rw [listPlan_macroCall ordinary found]
    apply mirrors_macroCall pure
    intro expansion expands
    apply inside expansion outer _ (Nat.le_of_lt shallow) deeper
    simp only [Expanders.parts?, ordinary, defined, expands]
    rfl

section Kept

variable {form : SpecialForm} {head : Datum} {args parts : List Datum}

theorem mirrors_refused (unfit : form.compiled? args = none) {y : Emit σ μ (Option String)} :
    Mirrors macros host outer inner holds
      (compiler.carryOut below (specialPlan compiler.target form args)) y := by
  have planned : Plan.Fits args form (specialPlan compiler.target form args : Plan μ) _ :=
    specialPlan_fits compiler.target form args
  rw [unfit] at planned
  generalize specialPlan compiler.target form args = plan at planned
  cases planned with
  | refused => exact .ofThrow

theorem mirrors_construct {node : Datum} {construct : Construct}
    (stays : ¬(macros.expanders expand).givesWay node)
    (compiled : (macros.expanders expand).parts? node = some parts)
    (refilled : Expanders.none.parts? (node.refill (parts.map f)) = some (parts.map f))
    (similar : node.Similar (node.refill (parts.map f)))
    (same : ∀ part, part ∈ construct.nodes ↔ part ∈ parts)
    (callees : ∀ operand, (.callee, operand) ∈ construct.operands →
      ¬(macros.expanders expand).givesWay operand ∧ operand.Similar (f operand))
    (inside : ∀ part ∈ parts, Mirrors macros host outer inner
      ((macros.expanders expand).Expanded part (f part)) (below part) (below' (f part))) :
    Mirrors macros host outer inner
      ((macros.expanders expand).Expanded node (node.refill (parts.map f)))
      (compiler.carryOut below (.construct construct))
      (compiler.carryOut below' (.construct (construct.map f))) := by
  have operands : Mirrors macros host outer inner
      (∀ part ∈ construct.nodes, (macros.expanders expand).Expanded part (f part))
      (compiler.emitConstruct below construct) (compiler.emitConstruct below' (construct.map f)) := by
    apply mirrors_emitConstruct (fun part member => inside part ((same part).mp member))
    intro operand isCallee
    rcases callees operand isCallee with ⟨keeps, alike⟩
    exact isTight_similar keeps alike
  apply operands.imp
  intro all
  exact .kept stays compiled refilled similar fun part member => all part ((same part).mpr member)

theorem mirrors_special (noTemplate : form ≠ .quasiquote) (noMacro : form ≠ .defineMacro)
    (stays : ¬(macros.expanders expand).givesWay (.list (.symbol form.name :: args)))
    (fits : form.compiled? args = some parts)
    (shaped : ∀ operand ∈ (Datum.list (.symbol form.name :: args)).shaped,
      ¬(macros.expanders expand).givesWay operand ∧ operand.Similar (f operand))
    (inside : ∀ part ∈ parts, Mirrors macros host outer inner
      ((macros.expanders expand).Expanded part (f part)) (below part) (below' (f part))) :
    Mirrors macros host outer inner
      ((macros.expanders expand).Expanded (.list (.symbol form.name :: args))
        (.list (.symbol form.name :: form.refill args (parts.map f))))
      (compiler.carryOut below (specialPlan compiler.target form args))
      (compiler.carryOut below' (specialPlan compiler.target form (form.refill args (parts.map f)))) := by
  have replanned : Replanned μ compiler.target f form args parts :=
    specialPlan_refill compiler.target f noTemplate noMacro fits fun operand member =>
      (shaped operand member).2
  rcases replanned with ⟨refilled, construct, before, behind, callees⟩
  have planned : Plan.Fits args form (specialPlan compiler.target form args : Plan μ) _ :=
    specialPlan_fits compiler.target form args
  rw [fits, before] at planned
  rw [before, behind, ← Datum.refill_special]
  cases planned with
  | built same =>
    apply mirrors_construct stays _ _ _ same _ inside
    · rw [Expanders.parts?_special, fits]
    · rw [Datum.refill_special, Expanders.parts?_special, refilled]
    · rw [Datum.refill_special]
      exact .ofHeads rfl
    · exact fun operand isCallee => shaped operand (callees operand isCallee)

theorem ordinary_of_similar (ordinary : ∀ form : SpecialForm, head ≠ .symbol form.name)
    {other : Datum} (similar : head.Similar other) (form : SpecialForm) :
    other ≠ .symbol form.name := by
  rintro rfl
  have same := similar.symbol?_eq
  cases head with
  | symbol name =>
    cases same
    exact ordinary form rfl
  | _ => cases same

theorem listPlan_stays (ordinary : ∀ form : SpecialForm, head ≠ .symbol form.name)
    (stays : ¬(macros.expanders expand).givesWay (.list (head :: args))) (target : Target) :
    listPlan target macros (head :: args) = .construct (callPlan target head args) := by
  refine listPlan_call target ordinary (fun name same => ?_) args
  subst same
  have noForm := SpecialForm.ofName?_eq_none ordinary
  cases defined : macros.get? name with
  | none => rfl
  | some expander =>
    refine absurd ?_ stays
    simp [Expanders.givesWay, Expanders.isCall, Datum.head?_cons, Datum.symbol?, noForm,
      MacroTable.expanders, defined]

theorem mirrors_application (ordinary : ∀ form : SpecialForm, head ≠ .symbol form.name)
    (stays : ¬(macros.expanders expand).givesWay (.list (head :: args)))
    (compiled : (macros.expanders expand).parts? (.list (head :: args)) = some (head :: args))
    (keeps : ¬(macros.expanders expand).givesWay head) (similar : head.Similar (f head))
    (inside : ∀ item ∈ head :: args, Mirrors macros host outer inner
      ((macros.expanders expand).Expanded item (f item)) (below item) (below' (f item))) :
    Mirrors macros host outer inner
      ((macros.expanders expand).Expanded (.list (head :: args)) (.list ((head :: args).map f)))
      (compiler.carryOut below (listPlan compiler.target macros (head :: args)))
      (compiler.carryOut below' (listPlan compiler.target .empty ((head :: args).map f))) := by
  have still := ordinary_of_similar ordinary similar
  have planned : listPlan compiler.target (.empty : MacroTable μ) ((head :: args).map f) =
      .construct ((callPlan compiler.target head args).map f) := by
    rw [List.map_cons, listPlan_application _ still, callPlan_map]
  have refilled : (Datum.list (head :: args)).refill ((head :: args).map f) =
      .list ((head :: args).map f) := Datum.refill_application ordinary _
  rw [listPlan_stays ordinary stays, planned, ← refilled]
  apply mirrors_construct stays compiled _ _ _ _ inside
  · rw [refilled, List.map_cons, Expanders.none_parts?_application still]
  · rw [refilled]
    exact .ofHeads similar.symbol?_eq
  · simp [callPlan, Construct.nodes, Function.comp_def]
  · intro operand isCallee
    obtain rfl : operand = head := by simpa [callPlan] using isCallee
    exact ⟨keeps, similar⟩

end Kept

/-- What a list that does not give way is made into is mirrored by its expanded form. -/
theorem mirrors_kept {levels : Nat} (shallow : outer < maxNesting) (deeper : inner ≤ outer)
    (stays : ¬(macros.expanders expand).givesWay (.list items))
    (clean : (macros.expanders expand).Clean (.list items))
    (inside : ∀ part ∈ (macros.expanders expand).parts (.list items),
      Mirrors macros host (outer + 1) (inner + 1)
        ((macros.expanders expand).Expanded part ((macros.expanders expand).ahead levels part))
        (below part) (below' ((macros.expanders expand).ahead levels part))) :
    Mirrors macros host outer inner
      ((macros.expanders expand).Expanded (.list items)
        ((macros.expanders expand).ahead (levels + 1) (.list items)))
      (compiler.step below (.list items))
      (compiler.step below' ((macros.expanders expand).ahead (levels + 1) (.list items))) := by
  rw [Expanders.ahead_kept stays]
  cases items with
  | nil => exact mirrors_list shallow .ofThrow
  | cons head args =>
    rcases Expanders.stays_cases stays with ⟨form, rfl, noTemplate⟩ | ⟨ordinary, compiled⟩
    · rw [Expanders.parts_special] at inside ⊢
      rw [Datum.refill_special]
      apply mirrors_lists shallow deeper
      rw [listPlan_special, listPlan_special]
      cases fits : form.compiled? args with
      | none => exact mirrors_refused fits
      | some parts =>
        rw [fits, Option.getD_some] at inside
        have noMacro : form ≠ .defineMacro := by
          rintro rfl
          exact clean.noDefinitions _ .here ⟨args, rfl⟩
        apply mirrors_special noTemplate noMacro stays fits _ inside
        intro operand member
        have keeps := clean.noneShaped _ .here operand member
        exact ⟨keeps, Expanders.similar_ahead (clean.shaped fits operand member) keeps levels⟩
    · rw [Expanders.parts, compiled, Option.getD_some] at inside ⊢
      rw [Datum.refill_application ordinary]
      have keeps : ¬(macros.expanders expand).givesWay head :=
        clean.noneShaped _ .here head (by simp [Datum.shaped_application ordinary])
      have cleanHead : (macros.expanders expand).Clean head := by
        apply clean.part
        simp [Expanders.parts, compiled]
      apply mirrors_lists shallow deeper
      exact mirrors_application ordinary stays compiled keeps
        (Expanders.similar_ahead cleanHead keeps levels) inside

/-- Compiling a node is mirrored by compiling its expanded form without macros. -/
theorem mirrors_node (pure : compiler.host.ExpandsBy expand) {node : Datum} {levels levels' : Nat}
    (clean : (macros.expanders expand).Clean node) (room : outer ≤ maxNesting) (deeper : inner ≤ outer)
    (enough : maxNesting < levels' + inner) :
    Mirrors macros host outer inner
      ((macros.expanders expand).Expanded node ((macros.expanders expand).ahead levels node))
      (compiler.node levels node)
      (compiler.node levels' ((macros.expanders expand).ahead levels node)) := by
  induction levels generalizing node levels' outer inner with
  | zero => exact .ofThrow
  | succ levels ih =>
    obtain ⟨fewer, rfl⟩ : ∃ fewer, levels' = fewer + 1 := ⟨levels' - 1, by omega⟩
    change Mirrors macros host outer inner _ (compiler.step (compiler.node levels) node) _
    by_cases isAtom : node.items? = none
    · rw [Expanders.ahead_atom isAtom]
      change Mirrors macros host outer inner _ _ (compiler.step (compiler.node fewer) node)
      rw [step_atom _ _ isAtom, step_atom _ _ isAtom]
      exact .ofPure (Expanders.expanded_atom isAtom)
    cases node with
    | list items =>
      by_cases full : maxNesting ≤ outer
      · exact mirrors_full full
      have shallow : outer < maxNesting := Nat.lt_of_not_le full
      by_cases givesWay : (macros.expanders expand).givesWay (.list items)
      · apply mirrors_replaced pure shallow deeper givesWay
        intro part level compiled low above
        have cleanPart : (macros.expanders expand).Clean part := by
          apply clean.part
          simp [Expanders.parts, compiled]
        rw [Expanders.ahead_replaced givesWay compiled]
        exact (ih cleanPart low above enough).imp (.replaced givesWay compiled)
      · apply mirrors_kept shallow deeper givesWay clean
        intro part compiled
        exact ih (clean.part compiled) shallow (by omega) (by omega)
    | _ => exact absurd rfl isAtom

/-- Expanding macros while compiling is expanding them ahead. Where a form is compiled that defines no
macros and has nothing that gives way where shapes count, it has just one expanded form. In that nothing
gives way any more, and with no macros defined it is compiled to the same fragment. -/
theorem compile_expanded (compiler : Compiler σ μ) {expand : μ → List Datum → Except HostError Datum}
    (pure : compiler.host.ExpandsBy expand) (macros : MacroTable μ) (host : σ) (form : Datum)
    (noDefinitions : ∀ node, (macros.expanders expand).Compiles form node →
      ¬node.IsSpecial .defineMacro)
    (noneShaped : ∀ node, (macros.expanders expand).Compiles form node → ∀ operand ∈ node.shaped,
      ¬(macros.expanders expand).givesWay operand)
    (fragment : String) (session : Session σ μ)
    (compiled : compiler.compile form ⟨host, macros⟩ = .ok (some fragment) session) :
    ∃ expanded, (∀ result, (macros.expanders expand).ExpandsTo form result ↔ result = expanded) ∧
      (∀ node, Expanders.none.Compiles expanded node → ¬(macros.expanders expand).givesWay node) ∧
      ∀ other, compiler.compile expanded (.start other) = .ok (some fragment) (.start other) := by
  have clean : (macros.expanders expand).Clean form := ⟨noDefinitions, noneShaped⟩
  have mirrored (other : σ) : Mirrors macros other 0 0
      ((macros.expanders expand).Expanded form ((macros.expanders expand).ahead maxLevels form))
      (compiler.node maxLevels form)
      (compiler.node maxLevels ((macros.expanders expand).ahead maxLevels form)) :=
    mirrors_node pure clean (Nat.zero_le _) (Nat.le_refl _) (by decide)
  have twin (other : σ) : Walk.Twin macros other 0 0 (Walk.start ⟨host, macros⟩)
      (Walk.start (.start other)) := ⟨rfl, rfl, rfl, rfl, rfl, rfl⟩
  simp only [compile] at compiled
  cases ran : compiler.node maxLevels form (Walk.start ⟨host, macros⟩) with
  | error error walk => simp [ran] at compiled
  | ok code walk =>
    rw [ran] at compiled
    simp only [EStateM.Result.ok.injEq] at compiled
    have expanded := (mirrored host _ _ (twin host) code walk ran).1
    refine ⟨_, fun result => ⟨fun also => also.unique expanded.expands, ?_⟩, expanded.stays, ?_⟩
    · rintro rfl
      exact expanded.expands
    · intro other
      rcases (mirrored other _ _ (twin other) code walk ran).2 with ⟨last, same, after⟩
      have left : last.toSession = .start other := by
        rw [Session.start, ← after.host, ← after.emptied]
      simp only [compile, same, ← after.locals_eq, compiled.1, left]

end Compiler

def Host.ofFunctions : Host Unit (List Datum → Except HostError Datum) where
  evalMacro _ _ := throw .detached
  expand expander args state :=
    match expander args with
    | .ok node => .ok node state
    | .error error => .error error state
  run _ := pure ()

/-- `(unless a b)` is `(if a nil b)`, and `(never a)` is `(unless a (quasiquote ((unquote a))))`. -/
def MacroTable.negations : MacroTable (List Datum → Except HostError Datum) :=
  (MacroTable.empty.define "unless" negate).define "never" wrap
where
  negate : List Datum → Except HostError Datum
    | [condition, node] => .ok (.list [.symbol "if", condition, .nil, node])
    | _ => .error (.raised "unless takes two arguments")
  wrap : List Datum → Except HostError Datum
    | [condition] => .ok (.list [.symbol "unless", condition,
        .list [.symbol "quasiquote", .list [.list [.symbol "unquote", condition]]]])
    | _ => .error (.raised "never takes one argument")

def Datum.negatedDefinition : Datum :=
  .list [.symbol "def", .symbol "f", .list [.symbol "fn", .list [.symbol "x"],
    .list [.symbol "never", .list [.symbol "g", .symbol "x"]]]]

theorem Compiler.compile_expanded_negatedDefinition :
    ∃ expanded, (∀ node, Expanders.none.Compiles expanded node →
        ¬(MacroTable.negations.expanders id).givesWay node) ∧
      compile ⟨.ruby, Host.ofFunctions⟩ expanded (.start ()) = .ok (some
        "f = ->(x) \x7b ((g.(x) ? nil : cons.(g.(x), []))) \x7d") (.start ()) := by
  have clean : (MacroTable.negations.expanders id).Clean Datum.negatedDefinition := by
    apply Expanders.Clean.of_isClean 9
    cbv
  have compiled : compile ⟨.ruby, Host.ofFunctions⟩ Datum.negatedDefinition
      ⟨(), MacroTable.negations⟩ = .ok (some "f = ->(x) \x7b ((g.(x) ? nil : cons.(g.(x), []))) \x7d")
      ⟨(), MacroTable.negations⟩ := by
    cbv
  rcases compile_expanded ⟨.ruby, Host.ofFunctions⟩ (fun _ _ _ => rfl) _ () _ clean.noDefinitions
    clean.noneShaped _ _ compiled with ⟨expanded, -, stays, same⟩
  exact ⟨expanded, stays, same ()⟩

end LispCompiler
