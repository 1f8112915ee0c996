import LispCompiler.Proofs.Compiler.Positions

/-!
Expanding a form ahead of compiling it: in all compiled positions, macro calls and templates give way
to what they expand to. Main statements: the expanded form is unique, and nodes that do not give way
keep their shape.
-/

namespace LispCompiler

namespace Expanders

variable (expanders : Expanders)

def isCall (node : Datum) : Bool :=
  node.head?.any fun name => (SpecialForm.ofName? name).isNone && (expanders name).isSome

def givesWay (node : Datum) : Bool :=
  expanders.isCall node || node.head? == some SpecialForm.quasiquote.name

end Expanders

def SpecialForm.refill (form : SpecialForm) (args parts : List Datum) : List Datum :=
  match form, args, parts with
  | .define, name :: _, parts | .defineMacro, name :: _, parts | .function, name :: _, parts =>
    name :: parts
  | .send, _ :: .string method :: _, receiver :: rest => receiver :: .string method :: rest
  | .quote, args, _ => args
  | .guard, [_, .list [keyword, binding, _]], [node, handler] =>
    [node, .list [keyword, binding, handler]]
  | _, _, parts => parts

def Datum.refill (node : Datum) (parts : List Datum) : Datum :=
  match node with
  | .list (.symbol name :: args) =>
    match SpecialForm.ofName? name with
    | some form => .list (.symbol name :: form.refill args parts)
    | none => .list parts
  | .list _ => .list parts
  | atom => atom

namespace Expanders

variable (expanders : Expanders)

mutual

/-- All macro calls and templates in compiled positions of the first node are expanded in the second. -/
inductive ExpandsTo : Datum → Datum → Prop
  | replaced {node part result : Datum} (givesWay : expanders.givesWay node)
      (compiled : expanders.parts? node = some [part]) (further : ExpandsTo part result) :
      ExpandsTo node result
  | kept {node : Datum} {parts results : List Datum} (stays : ¬expanders.givesWay node)
      (compiled : expanders.parts? node = some parts) (all : ExpandsAll parts results) :
      ExpandsTo node (node.refill results)

inductive ExpandsAll : List Datum → List Datum → Prop
  | nil : ExpandsAll [] []
  | cons {node result : Datum} {nodes results : List Datum} (first : ExpandsTo node result)
      (others : ExpandsAll nodes results) : ExpandsAll (node :: nodes) (result :: results)

end

variable {expanders}

mutual

theorem ExpandsTo.unique : ∀ {node first second : Datum}, expanders.ExpandsTo node first →
    expanders.ExpandsTo node second → first = second
  | _, _, _, .replaced _ compiled further, .replaced _ again other => by
    rw [compiled] at again
    cases again
    exact further.unique other
  | _, _, _, .replaced givesWay _ _, .kept stays _ _ => absurd givesWay stays
  | _, _, _, .kept stays _ _, .replaced givesWay _ _ => absurd givesWay stays
  | _, _, _, .kept _ compiled all, .kept _ again others => by
    rw [compiled] at again
    cases again
    rw [all.unique others]

theorem ExpandsAll.unique : ∀ {nodes first second : List Datum}, expanders.ExpandsAll nodes first →
    expanders.ExpandsAll nodes second → first = second
  | _, _, _, .nil, .nil => rfl
  | _, _, _, .cons first others, .cons again more => by
    rw [first.unique again, others.unique more]

end

theorem expandsAll_map {nodes : List Datum} {f : Datum → Datum}
    (each : ∀ node ∈ nodes, expanders.ExpandsTo node (f node)) :
    expanders.ExpandsAll nodes (nodes.map f) := by
  induction nodes with
  | nil => exact .nil
  | cons node nodes ih =>
    rcases List.forall_mem_cons.mp each with ⟨first, others⟩
    exact .cons first (ih others)

variable (expanders) in
def ahead : (levels : Nat) → Datum → Datum
  | 0, node => node
  | levels + 1, node =>
    if expanders.givesWay node then
      match expanders.parts node with
      | [part] => ahead levels part
      | _ => node
    else node.refill ((expanders.parts node).map (ahead levels))

end Expanders

/-- The operands of a node at whose shape the compiler looks: the head of an application, a function
that is applied to a list, receivers and messages. -/
def Datum.shaped : Datum → List Datum
  | .list (head :: args) =>
    match head.symbol?.bind SpecialForm.ofName? with
    | some .apply => args.take 1
    | some .send => args.take 2
    | some _ => []
    | none => [head]
  | _ => []

namespace Datum

variable {head : Datum} {args : List Datum}

theorem head?_cons : (list (head :: args)).head? = head.symbol? :=
  rfl

theorem refill_special (form : SpecialForm) (parts : List Datum) :
    (list (.symbol form.name :: args)).refill parts =
      .list (.symbol form.name :: form.refill args parts) := by
  simp only [refill, SpecialForm.ofName?_name]

theorem refill_application (ordinary : ∀ form : SpecialForm, head ≠ .symbol form.name)
    (parts : List Datum) : (list (head :: args)).refill parts = .list parts := by
  cases head with
  | symbol name => simp only [refill, SpecialForm.ofName?_eq_none ordinary]
  | _ => rfl

theorem shaped_application (ordinary : ∀ form : SpecialForm, head ≠ .symbol form.name) :
    (list (head :: args)).shaped = [head] := by
  cases head with
  | symbol name =>
    simp only [shaped, symbol?, Option.bind_some, SpecialForm.ofName?_eq_none ordinary]
  | _ => rfl

end Datum

structure Datum.Similar (node other : Datum) : Prop where
  atom (isAtom : node.items? = none) : other = node
  list (isList : node.items?.isSome) : other.items?.isSome
  head : other.head? = node.head?

namespace Datum.Similar

variable {node other : Datum}

theorem refl (node : Datum) : Similar node node :=
  ⟨fun _ => rfl, id, rfl⟩

theorem ofHeads {items others : List Datum} (same : (Datum.list others).head? = (Datum.list items).head?) :
    Similar (.list items) (.list others) :=
  ⟨nofun, fun _ => rfl, same⟩

theorem symbol?_eq (similar : Similar node other) : other.symbol? = node.symbol? := by
  cases node with
  | list items =>
    have isList := similar.list rfl
    cases other with
    | list others => rfl
    | _ => cases isList
  | _ => rw [similar.atom rfl]

end Datum.Similar

namespace Expanders

variable {expanders : Expanders}

variable (expanders) in
/-- Nothing in a compiled position defines a macro, and nothing gives way where its shape counts. -/
structure Clean (form : Datum) : Prop where
  noDefinitions : ∀ node, expanders.Compiles form node → ¬node.IsSpecial .defineMacro
  noneShaped : ∀ node, expanders.Compiles form node → ∀ operand ∈ node.shaped,
    ¬expanders.givesWay operand

theorem Clean.part {node part : Datum} (clean : expanders.Clean node)
    (compiled : part ∈ expanders.parts node) : expanders.Clean part where
  noDefinitions inner compiles := clean.noDefinitions inner (.within compiled compiles)
  noneShaped inner compiles := clean.noneShaped inner (.within compiled compiles)

theorem ahead_kept {node : Datum} (stays : ¬expanders.givesWay node) (levels : Nat) :
    expanders.ahead (levels + 1) node =
      node.refill ((expanders.parts node).map (expanders.ahead levels)) := by
  rw [ahead, if_neg stays]

/-- A list that does not give way is a special form other than a template, or an application. -/
theorem stays_cases {head : Datum} {args : List Datum}
    (stays : ¬expanders.givesWay (.list (head :: args))) :
    (∃ form : SpecialForm, head = .symbol form.name ∧ form ≠ .quasiquote) ∨
      (∀ form : SpecialForm, head ≠ .symbol form.name) ∧
        expanders.parts? (.list (head :: args)) = some (head :: args) := by
  rcases SpecialForm.named_or_ordinary head with ⟨form, rfl⟩ | ordinary
  · refine .inl ⟨form, rfl, ?_⟩
    rintro rfl
    exact stays (by simp [givesWay, Datum.head?_cons, Datum.symbol?])
  · refine .inr ⟨ordinary, ?_⟩
    cases head with
    | symbol name =>
      have noForm := SpecialForm.ofName?_eq_none ordinary
      cases defined : expanders name with
      | none => simp only [parts?, noForm, defined]
      | some expander =>
        exact absurd (by simp [givesWay, isCall, Datum.head?_cons, Datum.symbol?, noForm, defined]) stays
    | _ => rfl

/-- Expanding keeps the shape of a node that does not give way. -/
theorem similar_ahead {node : Datum} (clean : expanders.Clean node) (stays : ¬expanders.givesWay node)
    (levels : Nat) : node.Similar (expanders.ahead levels node) := by
  induction levels generalizing node with
  | zero => exact .refl node
  | succ levels ih =>
    rw [ahead_kept stays]
    cases node with
    | list items =>
      cases items with
      | nil => exact .refl _
      | cons head args =>
        rcases stays_cases stays with ⟨form, rfl, -⟩ | ⟨ordinary, compiled⟩
        · rw [Datum.refill_special]
          exact .ofHeads rfl
        · have inside : head ∈ expanders.parts (.list (head :: args)) := by simp [parts, compiled]
          have keeps : ¬expanders.givesWay head :=
            clean.noneShaped _ .here head (by simp [Datum.shaped_application ordinary])
          have similar := ih (clean.part inside) keeps
          rw [Datum.refill_application ordinary, parts, compiled]
          exact .ofHeads similar.symbol?_eq
    | _ => exact .refl _

end Expanders

namespace Expanders

variable {expanders : Expanders} {node part result : Datum} {parts : List Datum} {f : Datum → Datum}

variable (expanders) in
structure Expanded (node result : Datum) : Prop where
  expands : expanders.ExpandsTo node result
  stays : ∀ inner, none.Compiles result inner → ¬expanders.givesWay inner

theorem givesWay_of_head_eq (same : result.head? = node.head?) :
    expanders.givesWay result = expanders.givesWay node := by
  simp only [givesWay, isCall, same]

theorem Expanded.replaced (givesWay : expanders.givesWay node)
    (compiled : expanders.parts? node = some [part]) (expanded : expanders.Expanded part result) :
    expanders.Expanded node result :=
  ⟨.replaced givesWay compiled expanded.expands, expanded.stays⟩

theorem Expanded.kept (stays : ¬expanders.givesWay node)
    (compiled : expanders.parts? node = some parts)
    (refilled : none.parts? (node.refill (parts.map f)) = some (parts.map f))
    (similar : node.Similar (node.refill (parts.map f)))
    (all : ∀ part ∈ parts, expanders.Expanded part (f part)) :
    expanders.Expanded node (node.refill (parts.map f)) where
  expands := .kept stays compiled (expandsAll_map fun part member => (all part member).expands)
  stays := by
    intro inner compiles
    cases compiles with
    | here =>
      rw [givesWay_of_head_eq similar.head]
      exact stays
    | within member inside =>
      rw [Expanders.parts, refilled, Option.getD_some] at member
      rcases List.mem_map.mp member with ⟨part, original, rfl⟩
      exact (all part original).stays inner inside

theorem not_givesWay_atom (isAtom : node.items? = Option.none) : ¬expanders.givesWay node := by
  have headless : node.head? = Option.none := by simp [Datum.head?, isAtom]
  simp [givesWay, isCall, headless]

theorem parts?_atom (isAtom : node.items? = Option.none) : expanders.parts? node = some [] := by
  cases node with
  | list items => cases isAtom
  | _ => rfl

theorem refill_atom (isAtom : node.items? = Option.none) : node.refill parts = node := by
  cases node with
  | list items => cases isAtom
  | _ => rfl

theorem ahead_atom (isAtom : node.items? = Option.none) (levels : Nat) :
    expanders.ahead (levels + 1) node = node := by
  rw [ahead_kept (not_givesWay_atom isAtom), refill_atom isAtom]

theorem expanded_atom (isAtom : node.items? = Option.none) : expanders.Expanded node node := by
  have whole : expanders.Expanded node (node.refill (([] : List Datum).map id)) := by
    apply Expanded.kept (not_givesWay_atom isAtom) (parts?_atom isAtom)
    · rw [refill_atom isAtom]
      exact parts?_atom isAtom
    · rw [refill_atom isAtom]
      exact .refl node
    · simp
  rwa [refill_atom isAtom] at whole

theorem ahead_replaced (givesWay : expanders.givesWay node)
    (compiled : expanders.parts? node = some [part]) (levels : Nat) :
    expanders.ahead (levels + 1) node = expanders.ahead levels part := by
  rw [ahead, if_pos givesWay, parts, compiled]
  rfl

theorem givesWay_cases {items : List Datum} (givesWay : expanders.givesWay (.list items)) :
    (∃ args, items = .symbol SpecialForm.quasiquote.name :: args) ∨
      ∃ name args expander, items = .symbol name :: args ∧ SpecialForm.ofName? name = Option.none ∧
        expanders name = some expander := by
  match items with
  | .symbol name :: args =>
    simp only [Expanders.givesWay, isCall, Datum.head?_cons, Datum.symbol?, Option.any_some,
      Bool.or_eq_true, Bool.and_eq_true, beq_iff_eq, Option.some.injEq, Option.isNone_iff_eq_none,
      Option.isSome_iff_exists] at givesWay
    rcases givesWay with ⟨ordinary, expander, defined⟩ | rfl
    · exact .inr ⟨name, args, expander, rfl, ordinary, defined⟩
    · exact .inl ⟨args, rfl⟩
  | [] | .list _ :: _ | .integer _ :: _ | .float _ :: _ | .string _ :: _ | .bool _ :: _ | .nil :: _ =>
    cases givesWay

theorem Clean.atom (isAtom : node.items? = Option.none) : expanders.Clean node := by
  have alone : ∀ inner, expanders.Compiles node inner → inner = node := by
    intro inner compiles
    cases compiles with
    | here => rfl
    | within member _ => simp [parts, parts?_atom isAtom] at member
  constructor
  · rintro inner compiles ⟨args, rfl⟩
    rw [← alone _ compiles] at isAtom
    cases isAtom
  · intro inner compiles operand shaped
    rw [alone inner compiles] at shaped
    cases node with
    | list items => cases isAtom
    | _ => cases shaped

theorem Clean.send {args parts : List Datum} (fits : SpecialForm.send.compiled? args = some parts)
    (compiled : ∀ part ∈ parts, expanders.Clean part) (operand : Datum) (shaped : operand ∈ args.take 2) :
    expanders.Clean operand := by
  match args with
  | receiver :: message :: rest =>
    have either : operand = receiver ∨ operand = message := by simpa using shaped
    rcases either with rfl | rfl
    · cases message <;> cases fits <;> exact compiled operand List.mem_cons_self
    · cases operand with
      | string method => exact .atom rfl
      | _ =>
        cases fits
        exact compiled _ (by simp)
  | [] | [_] => cases fits

/-- Operands whose shape counts are compiled themselves, or are the name of a method. -/
theorem Clean.shaped {form : SpecialForm} {args parts : List Datum}
    (clean : expanders.Clean (.list (.symbol form.name :: args)))
    (fits : form.compiled? args = some parts) (operand : Datum)
    (shaped : operand ∈ (Datum.list (.symbol form.name :: args)).shaped) :
    expanders.Clean operand := by
  simp only [Datum.shaped, Datum.symbol?, Option.bind_some, SpecialForm.ofName?_name] at shaped
  have compiled : ∀ part ∈ parts, expanders.Clean part := by
    intro part member
    apply clean.part
    rwa [parts_special, fits]
  cases form with
  | apply =>
    obtain rfl : args = parts := SpecialForm.apply_compiled? fits
    exact compiled operand (List.mem_of_mem_take shaped)
  | send => exact Clean.send fits compiled operand shaped
  | _ => cases shaped

variable (expanders) in
def isClean : (levels : Nat) → Datum → Bool
  | 0, _ => false
  | levels + 1, node =>
    node.head? != some SpecialForm.defineMacro.name && node.shaped.all (!expanders.givesWay ·) &&
      (expanders.parts node).all (isClean levels)

theorem Clean.of_isClean (levels : Nat) (tested : expanders.isClean levels node) :
    expanders.Clean node := by
  have every : ∀ inner, expanders.Compiles node inner →
      inner.head? ≠ some SpecialForm.defineMacro.name ∧
        ∀ operand ∈ inner.shaped, ¬expanders.givesWay operand := by
    intro inner compiles
    induction compiles generalizing levels with
    | here =>
      cases levels with
      | zero => cases tested
      | succ levels => simp_all [isClean]
    | within compiled _ ih =>
      cases levels with
      | zero => cases tested
      | succ levels =>
        simp only [isClean, Bool.and_eq_true, List.all_eq_true] at tested
        exact ih levels (tested.2 _ compiled)
  constructor
  · rintro inner compiles ⟨args, rfl⟩
    exact (every _ compiles).1 rfl
  · exact fun inner compiles => (every inner compiles).2

end Expanders

end LispCompiler
