import LispCompiler.Proofs.Compiler.Plan

/-!
The positions of a form that are compiled. Each special form asks for operands of a certain shape and
compiles some of them. Main statement: the plan of a special form refuses operands of any other shape,
and else compiles just these.
-/

namespace LispCompiler

abbrev Expanders :=
  String → Option (List Datum → Except HostError Datum)

def Expanders.none : Expanders :=
  fun _ => Option.none

def isParameterList : List Datum → Bool
  | [] => true
  | .symbol name :: params =>
    if name = Parameters.restMarker then
      match params with
      | [.symbol rest] => rest != Parameters.restMarker
      | _ => false
    else isParameterList params
  | _ => false

namespace SpecialForm

def compiled? (form : SpecialForm) (args : List Datum) : Option (List Datum) :=
  match form, args with
  | .apply, [callee, list] => some [callee, list]
  | .block, [callee] => some [callee]
  | .define, [name, value] => if name.symbol?.isSome then some [value] else none
  | .defineMacro, [name, expander] => if name.symbol?.isSome then some [expander] else none
  | .sequence, nodes => some nodes
  | .function, params :: nodes => if params.items?.any isParameterList then some nodes else none
  | .conditional, [predicate, thenArm, elseArm] => some [predicate, thenArm, elseArm]
  | .send, receiver :: message :: rest =>
    match message with
    | .string _ => some (receiver :: rest)
    | _ => some (receiver :: message :: rest)
  | .quasiquote, [template] =>
    if template.depth ≤ maxNesting then (Template.expand template).toOption.map ([·]) else none
  | .quote, [datum] => if datum.depth ≤ maxNesting then some [] else none
  | .guard, [node, clause] =>
    match clause with
    | .list [.symbol "catch", .symbol _, handler] => some [node, handler]
    | _ => none
  | _, _ => none

theorem ofName?_eq_some {name : String} {form : SpecialForm} :
    ofName? name = some form ↔ name = form.name := by
  constructor
  · intro named
    unfold ofName? at named
    split at named <;> cases named <;> rfl
  · rintro rfl
    cases form <;> rfl

theorem ofName?_name (form : SpecialForm) : ofName? form.name = some form :=
  ofName?_eq_some.mpr rfl

theorem ofName?_eq_none {name : String}
    (ordinary : ∀ form : SpecialForm, Datum.symbol name ≠ .symbol form.name) :
    ofName? name = none := by
  cases found : ofName? name with
  | none => rfl
  | some form => exact absurd (by rw [ofName?_eq_some.mp found]) (ordinary form)

theorem named_or_ordinary (head : Datum) :
    (∃ form : SpecialForm, head = .symbol form.name) ∨ ∀ form : SpecialForm, head ≠ .symbol form.name :=
  (Classical.em _).imp_right not_exists.mp

theorem apply_compiled? {args parts : List Datum} (fits : apply.compiled? args = some parts) :
    args = parts := by
  match args with
  | [callee, list] => exact Option.some.inj fits
  | [] | [_] | _ :: _ :: _ :: _ => cases fits

theorem quasiquote_compiled? {args parts : List Datum} :
    quasiquote.compiled? args = some parts ↔ ∃ template expanded, args = [template] ∧
      template.depth ≤ maxNesting ∧ Template.expand template = .ok expanded ∧ parts = [expanded] := by
  match args with
  | [template] =>
    simp only [compiled?, Option.ite_none_right_eq_some]
    cases expands : Template.expand template <;> simp [expands, Except.toOption, eq_comm]
  | [] | _ :: _ :: _ => simp [compiled?]

end SpecialForm

namespace Expanders

variable (expanders : Expanders)

/-- The nodes that are compiled for a node: the operands of a special form, the expansion of a macro
call, and otherwise all items. There are none where operands have the wrong shape or the macro fails. -/
def parts? : Datum → Option (List Datum)
  | .list (.symbol name :: args) =>
    match SpecialForm.ofName? name with
    | some form => form.compiled? args
    | Option.none =>
      match expanders name with
      | some expander => (expander args).toOption.map ([·])
      | Option.none => some (.symbol name :: args)
  | .list items => some items
  | _ => some []

def parts (node : Datum) : List Datum :=
  (expanders.parts? node).getD []

theorem parts?_special (form : SpecialForm) (args : List Datum) :
    expanders.parts? (.list (.symbol form.name :: args)) = form.compiled? args := by
  simp only [parts?, SpecialForm.ofName?_name]

theorem parts_special (form : SpecialForm) (args : List Datum) :
    expanders.parts (.list (.symbol form.name :: args)) = (form.compiled? args).getD [] := by
  rw [parts, parts?_special]

theorem none_parts?_application {head : Datum} (ordinary : ∀ form : SpecialForm, head ≠ .symbol form.name)
    (args : List Datum) : none.parts? (.list (head :: args)) = some (head :: args) := by
  cases head with
  | symbol name => simp only [parts?, SpecialForm.ofName?_eq_none ordinary, none]
  | _ => rfl

theorem none_parts_application {head : Datum} (ordinary : ∀ form : SpecialForm, head ≠ .symbol form.name)
    (args : List Datum) : none.parts (.list (head :: args)) = head :: args := by
  rw [parts, none_parts?_application ordinary, Option.getD_some]

inductive Compiles : Datum → Datum → Prop
  | here {node : Datum} : Compiles node node
  | within {node part inner : Datum} (compiled : part ∈ expanders.parts node)
      (inside : Compiles part inner) : Compiles node inner

end Expanders

def Datum.IsSpecial (form : SpecialForm) (node : Datum) : Prop :=
  ∃ args, node = .list (.symbol form.name :: args)

namespace Parameters

theorem names?_isSome {params : List Datum} :
    (names? params).isSome ↔ ∀ param ∈ params, (name? param).isSome := by
  induction params with
  | nil => simp [names?]
  | cons param params ih =>
    rw [List.forall_mem_cons, ← ih]
    cases first : name? param <;> cases rest : names? params <;> simp [names?, first, rest]

def HasRest (params : List Datum) : Prop :=
  ∃ fixed rest, params = fixed ++ [.symbol restMarker, rest]

theorem splitRest_append {fixed : List Datum} {rest : Datum} :
    splitRest (fixed ++ [.symbol restMarker, rest]) = (fixed, some rest) := by
  simp [splitRest, Datum.isSymbol, Datum.symbol?]

theorem splitRest_of_not_hasRest {params : List Datum} (ordinary : ¬HasRest params) :
    splitRest params = (params, none) := by
  unfold splitRest
  split
  · next rest marker fixed reversed =>
    split
    · next isMarker =>
      have whole := congrArg List.reverse reversed
      cases marker <;> simp [Datum.isSymbol, Datum.symbol?] at isMarker
      subst isMarker
      exact absurd ⟨fixed.reverse, rest, by simpa using whole⟩ ordinary
    · rfl
  · rfl

theorem isParameterList_append {fixed : List Datum} {rest : Datum} :
    isParameterList (fixed ++ [.symbol restMarker, rest]) ↔
      (∀ param ∈ fixed, (name? param).isSome) ∧ (name? rest).isSome := by
  induction fixed with
  | nil => cases rest <;> simp [isParameterList, name?]
  | cons param fixed ih =>
    cases param with
    | symbol name =>
      by_cases marker : name = restMarker
      · cases fixed <;> simp [isParameterList, name?, marker]
      · simp [isParameterList, name?, marker, ih]
    | _ => simp [isParameterList, name?]

theorem isParameterList_of_not_hasRest {params : List Datum} (ordinary : ¬HasRest params) :
    isParameterList params ↔ ∀ param ∈ params, (name? param).isSome := by
  induction params with
  | nil => simp [isParameterList]
  | cons param params ih =>
    have others : ¬HasRest params := by
      rintro ⟨fixed, rest, rfl⟩
      exact ordinary ⟨param :: fixed, rest, rfl⟩
    cases param with
    | symbol name =>
      by_cases marker : name = restMarker
      · subst marker
        match params with
        | [rest] => exact absurd ⟨[], rest, rfl⟩ ordinary
        | [] | _ :: _ :: _ => simp [isParameterList, name?]
      · simp [isParameterList, name?, marker, ih others]
    | _ => simp [isParameterList, name?]

theorem isParameterList_iff (params : List Datum) :
    isParameterList params ↔ (ofDatum? (.list params)).isSome := by
  by_cases hasRest : HasRest params
  · rcases hasRest with ⟨fixed, rest, rfl⟩
    rw [isParameterList_append, ← names?_isSome]
    cases named : names? fixed <;> cases last : name? rest <;>
      simp [ofDatum?, Datum.items?, splitRest_append, named, last]
  · rw [isParameterList_of_not_hasRest hasRest, ← names?_isSome]
    cases named : names? params <;>
      simp [ofDatum?, Datum.items?, splitRest_of_not_hasRest hasRest, named]

theorem any_isParameterList (params : Datum) :
    params.items?.any isParameterList = (ofDatum? params).isSome := by
  cases params with
  | list items => exact Bool.eq_iff_iff.mpr (isParameterList_iff items)
  | _ => rfl

end Parameters

theorem SpecialForm.guard_compiled? (node clause : Datum) :
    SpecialForm.guard.compiled? [node, clause] =
      (catchClause? clause).map fun (_, handler) => [node, handler] := by
  simp only [compiled?]
  split
  · rfl
  · next other =>
    unfold catchClause?
    split
    · next head binding handler =>
      cases head with
      | symbol name =>
        by_cases keyword : name = "catch"
        · exact absurd (by rw [keyword]) (other binding handler)
        · simp [Datum.isSymbol, Datum.symbol?, keyword]
      | _ => rfl
    · rfl

namespace Compiler

inductive Plan.Fits (args : List Datum) : SpecialForm → Plan μ → Option (List Datum) → Prop
  | refused {form : SpecialForm} {error : CompileError}
      (deep : error = .nestingTooDeep → ∃ datum, args = [datum] ∧ maxNesting < datum.depth) :
      Fits args form (.refuse error) none
  | replaced {node : Datum} : Fits args .quasiquote (.become node) (some [node])
  | macroDefined {name : String} {function : Datum} :
      Fits args .defineMacro (.defineMacro name function) (some [function])
  | built {form : SpecialForm} {construct : Construct} {parts : List Datum}
      (same : ∀ node, node ∈ construct.nodes ↔ node ∈ parts) :
      Fits args form (.construct construct) (some parts)

variable (target : Target)

theorem quasiquote_fits (template : Datum) : Plan.Fits [template] .quasiquote
    (specialPlan target .quasiquote [template] : Plan μ)
    (SpecialForm.quasiquote.compiled? [template]) := by
  simp only [specialPlan, SpecialForm.compiled?]
  by_cases deep : maxNesting < template.depth
  · rw [if_pos deep, if_neg (Nat.not_le.mpr deep)]
    exact .refused fun _ => ⟨template, rfl, deep⟩
  · rw [if_neg deep, if_pos (Nat.not_lt.mp deep)]
    cases Template.expand template with
    | ok expanded => exact .replaced
    | error flaw => exact .refused (by simp)

theorem quote_fits (datum : Datum) : Plan.Fits [datum] .quote
    (specialPlan target .quote [datum] : Plan μ) (SpecialForm.quote.compiled? [datum]) := by
  simp only [specialPlan, SpecialForm.compiled?]
  by_cases deep : maxNesting < datum.depth
  · rw [if_pos deep, if_neg (Nat.not_le.mpr deep)]
    exact .refused fun _ => ⟨datum, rfl, deep⟩
  · rw [if_neg deep, if_pos (Nat.not_lt.mp deep)]
    exact .built fun node => by rfl

theorem specialPlan_fits : ∀ (form : SpecialForm) (args : List Datum),
    Plan.Fits args form (specialPlan target form args : Plan μ) (form.compiled? args)
  | .apply, [_, _] | .block, [_] | .conditional, [_, _, _] => .built fun node => by rfl
  | .define, [name, value] => by
    cases name with
    | symbol name => exact .built fun node => by rfl
    | _ => exact .refused (by simp)
  | .defineMacro, [name, function] => by
    cases name with
    | symbol name => exact .macroDefined
    | _ => exact .refused (by simp)
  | .sequence, nodes => .built (by simp [sequencePlan, Construct.nodes, Function.comp_def])
  | .function, params :: nodes => by
    simp only [specialPlan, SpecialForm.compiled?, Parameters.any_isParameterList]
    cases Parameters.ofDatum? params with
    | none => exact .refused (by simp)
    | some names => exact .built (by simp [functionPlan, Construct.nodes, Function.comp_def])
  | .send, receiver :: message :: rest => by
    cases message with
    | string method => exact .built (by simp [sendPlan, Construct.nodes, Function.comp_def])
    | _ => exact .built (by simp [dynamicSendPlan, Construct.nodes, Function.comp_def, or_comm])
  | .quasiquote, [template] => quasiquote_fits target template
  | .quote, [datum] => quote_fits target datum
  | .guard, [node, clause] => by
    rw [SpecialForm.guard_compiled?]
    simp only [specialPlan]
    cases catchClause? clause with
    | none => exact .refused (by simp)
    | some parts => exact .built fun node => by rfl
  | .apply, [] | .apply, [_] | .apply, _ :: _ :: _ :: _ | .block, [] | .block, _ :: _ :: _
  | .define, [] | .define, [_] | .define, _ :: _ :: _ :: _
  | .defineMacro, [] | .defineMacro, [_] | .defineMacro, _ :: _ :: _ :: _
  | .function, [] | .send, [] | .send, [_] | .quasiquote, [] | .quasiquote, _ :: _ :: _
  | .conditional, [] | .conditional, [_] | .conditional, [_, _] | .conditional, _ :: _ :: _ :: _ :: _
  | .quote, [] | .quote, _ :: _ :: _ | .guard, [] | .guard, [_] | .guard, _ :: _ :: _ :: _ =>
    .refused (by simp)

theorem listPlan_special (macros : MacroTable μ) (form : SpecialForm) (args : List Datum) :
    listPlan target macros (.symbol form.name :: args) = specialPlan target form args := by
  simp only [listPlan, Role.ofHead, SpecialForm.ofName?_name]

theorem listPlan_macroCall {macros : MacroTable μ} {name : String} {expander : μ} {args : List Datum}
    (ordinary : SpecialForm.ofName? name = none) (defined : macros.get? name = some expander)
    (target : Target) : listPlan target macros (.symbol name :: args) = .expand name expander args := by
  simp only [listPlan, Role.ofHead, ordinary, defined]

theorem listPlan_call {macros : MacroTable μ} {head : Datum}
    (ordinary : ∀ form : SpecialForm, head ≠ .symbol form.name)
    (undefined : ∀ name, head = .symbol name → macros.get? name = none) (args : List Datum) :
    listPlan target macros (head :: args) = .construct (callPlan target head args) := by
  cases head with
  | symbol name => simp only [listPlan, Role.ofHead, SpecialForm.ofName?_eq_none ordinary, undefined name rfl]
  | _ => rfl

theorem listPlan_application {head : Datum} (ordinary : ∀ form : SpecialForm, head ≠ .symbol form.name)
    (args : List Datum) : listPlan target (.empty : MacroTable μ) (head :: args) =
      .construct (callPlan target head args) :=
  listPlan_call target ordinary (fun _ _ => by simp [MacroTable.get?, MacroTable.empty]) args

end Compiler

end LispCompiler
