import LispCompiler.Proofs.Datum.Instantiation

namespace LispCompiler.Template

def soleOperand (marker : Marker) : List Datum → Except Flaw Datum
  | [operand] => .ok operand
  | operands => .error ⟨marker, operands.length⟩

/-- The expansion of a template out of the expansions of its head and its tail. The head comes
first, also where both are malformed. -/
def expandByHead : Datum → Except Flaw Datum
  | .list (.symbol "unquote" :: operands) => soleOperand .unquote operands
  | .list (.list (.symbol "splice_unquote" :: operands) :: tail) => do
    let items ← soleOperand .spliceUnquote operands
    let rest ← expandByHead (.list tail)
    return .list [.symbol "concat", items, rest]
  | .list (head :: tail) => do
    let first ← expandByHead head
    let rest ← expandByHead (.list tail)
    return .list [.symbol "cons", first, rest]
  | template => .ok (.list [.symbol "quote", template])

def operandFlaws (marker : Marker) (operands : List Datum) : List Flaw :=
  if operands.length = 1 then [] else [⟨marker, operands.length⟩]

/-- The malformed unquotes of a template, from left to right. What is unquoted is no template. -/
def flaws : Datum → List Flaw
  | .list (.symbol "unquote" :: operands) => operandFlaws .unquote operands
  | .list (.list (.symbol "splice_unquote" :: operands) :: tail) =>
    operandFlaws .spliceUnquote operands ++ flaws (.list tail)
  | .list (head :: tail) => flaws head ++ flaws (.list tail)
  | _ => []

section Expanding

variable {head : Datum} {operands tail : List Datum}

theorem expand_list (items : List Datum) :
    expand (.list items) = (chain items).map fun (links, rest) => links.foldr Link.attach rest := by
  rw [expand]
  cases chain items <;> rfl

theorem expand_unquote :
    expand (.list (.symbol "unquote" :: operands)) = soleOperand .unquote operands := by
  rw [expand_list]
  unfold chain
  rw [if_pos (by decide)]
  match operands with
  | [] | [_] | _ :: _ :: _ => rfl

theorem expand_splice :
    expand (.list (.list (.symbol "splice_unquote" :: operands) :: tail)) = do
      let items ← soleOperand .spliceUnquote operands
      let rest ← expand (.list tail)
      return .list [.symbol "concat", items, rest] := by
  have splice : spliced? (.list (.symbol "splice_unquote" :: operands)) = some operands :=
    spliced?_eq_some.mpr rfl
  rw [expand_list]
  unfold chain
  rw [if_neg (by simp [isSymbol_iff]), splice, expand_list tail]
  match operands with
  | [] | _ :: _ :: _ => rfl
  | [operand] => cases chain tail <;> rfl

theorem expand_item (noUnquote : head ≠ .symbol "unquote")
    (noSplice : ∀ operands, head ≠ .list (.symbol "splice_unquote" :: operands)) :
    expand (.list (head :: tail)) = do
      let first ← expand head
      let rest ← expand (.list tail)
      return .list [.symbol "cons", first, rest] := by
  have noMark : ¬head.isSymbol Marker.unquote.symbol = true :=
    fun unquotes => noUnquote (isSymbol_iff.mp unquotes)
  have plain : spliced? head = none := by
    cases found : spliced? head with
    | none => rfl
    | some operands => exact absurd (spliced?_eq_some.mp found) (noSplice operands)
  rw [expand_list]
  unfold chain
  rw [if_neg noMark, plain, expand_list tail]
  cases expand head with
  | error flaw => rfl
  | ok first => cases chain tail <;> rfl

end Expanding

theorem expand_quoted {template : Datum} (noItems : ∀ head tail, template ≠ .list (head :: tail)) :
    expand template = .ok (.list [.symbol "quote", template]) := by
  match template with
  | .list (head :: tail) => exact absurd rfl (noItems head tail)
  | .list [] | .integer _ | .float _ | .string _ | .bool _ | .nil | .symbol _ => rfl

theorem expand_eq_expandByHead (template : Datum) : expand template = expandByHead template := by
  fun_induction expandByHead template with
  | case1 operands => exact expand_unquote
  | case2 operands tail rest => rw [expand_splice, rest]
  | case3 head tail noUnquote noSplice first rest =>
    rw [expand_item noUnquote noSplice, first, rest]
  | case4 template _ _ noItems => exact expand_quoted noItems

def FailsAtFirst (result : Except Flaw α) (found : List Flaw) : Prop :=
  ∀ flaw, result = .error flaw ↔ found.head? = some flaw

section Failing

variable {result : Except Flaw α} {found : List Flaw}

theorem FailsAtFirst.ofOk (value : α) : FailsAtFirst (.ok value) [] := by
  intro flaw
  simp

theorem FailsAtFirst.bind {next : α → Except Flaw β} {more : List Flaw}
    (first : FailsAtFirst result found) (second : ∀ value, FailsAtFirst (next value) more) :
    FailsAtFirst (result >>= next) (found ++ more) := by
  intro flaw
  cases result with
  | error other =>
    have foremost : found.head? = some other := (first other).mp rfl
    simp [List.head?_append, foremost, Bind.bind, Except.bind]
  | ok value =>
    have flawless : found.head? = none := by
      cases foremost : found.head? with
      | none => rfl
      | some other => cases (first other).mpr foremost
    rw [List.head?_append, flawless]
    exact second value flaw

theorem FailsAtFirst.map (finish : α → β) (first : FailsAtFirst result found) :
    FailsAtFirst (result >>= fun value => pure (finish value)) found := by
  have whole := first.bind fun value => .ofOk (finish value)
  rwa [List.append_nil] at whole

theorem FailsAtFirst.soleOperand (marker : Marker) (operands : List Datum) :
    FailsAtFirst (soleOperand marker operands) (operandFlaws marker operands) := by
  intro flaw
  match operands with
  | [] => simp [Template.soleOperand, operandFlaws]
  | [operand] => simp [Template.soleOperand, operandFlaws]
  | _ :: _ :: _ => simp [Template.soleOperand, operandFlaws]

end Failing

theorem failsAtFirst_expand (template : Datum) : FailsAtFirst (expand template) (flaws template) := by
  fun_induction flaws template with
  | case1 operands =>
    rw [expand_unquote]
    exact .soleOperand .unquote operands
  | case2 operands tail rest =>
    rw [expand_splice]
    exact .bind (.soleOperand .spliceUnquote operands) fun items => rest.map _
  | case3 head tail noUnquote noSplice first rest =>
    rw [expand_item noUnquote noSplice]
    exact first.bind fun item => rest.map _
  | case4 template _ _ noItems =>
    rw [expand_quoted noItems]
    exact .ofOk _

/-- Expanding a template is the recursion on its head and tail, with the same failures. It fails just
where the template has a malformed unquote, and names the first. -/
theorem expand_byHead_firstFlaw (template : Datum) :
    expand template = expandByHead template ∧
      ∀ flaw, expand template = .error flaw ↔ (flaws template).head? = some flaw :=
  ⟨expand_eq_expandByHead template, failsAtFirst_expand template⟩

end LispCompiler.Template
