import LispCompiler.Datum.Template

namespace LispCompiler.Template

/-- An evaluator of forms into values, of which some are lists. It is fixed only on the forms that
expansions are made of. -/
structure Evaluator (V : Type) where
  eval : Datum → V
  quoted : Datum → V
  prepend : V → V → V
  append : V → V → V
  eval_quote (datum : Datum) : eval (quote datum) = quoted datum
  eval_cons (item rest : Datum) :
    eval (.list [.symbol "cons", item, rest]) = prepend (eval item) (eval rest)
  eval_concat (items rest : Datum) :
    eval (.list [.symbol "concat", items, rest]) = append (eval items) (eval rest)
  empty_append (value : V) : append (quoted (.list [])) value = value
  prepend_append (first rest value : V) :
    append (prepend first rest) value = prepend first (append rest value)

variable (ρ : Evaluator V)

def Evaluator.list (values : List V) : V :=
  values.foldr ρ.prepend (ρ.quoted (.list []))

theorem Evaluator.append_list (values rest : List V) :
    ρ.append (ρ.list values) (ρ.list rest) = ρ.list (values ++ rest) := by
  induction values with
  | nil => exact ρ.empty_append (ρ.list rest)
  | cons value values ih =>
    calc ρ.append (ρ.list (value :: values)) (ρ.list rest)
        = ρ.prepend value (ρ.append (ρ.list values) (ρ.list rest)) := ρ.prepend_append ..
      _ = ρ.prepend value (ρ.list (values ++ rest)) := by rw [ih]

mutual

inductive Fills : Datum → V → Prop
  | atom {datum : Datum} (isAtom : datum.items? = none) : Fills datum (ρ.quoted datum)
  | list {items : List Datum} {value : V} (filled : FillsItems items value) :
      Fills (.list items) value

/-- The list that the items of a template describe. The symbol `unquote` before the last of them
makes the value of the last one the rest of the list. -/
inductive FillsItems : List Datum → V → Prop
  | nil : FillsItems [] (ρ.quoted (.list []))
  | tail {operand : Datum} :
      FillsItems [.symbol Marker.unquote.symbol, operand] (ρ.eval operand)
  | splice {operand : Datum} {items : List Datum} {rest : V} (behind : FillsItems items rest) :
      FillsItems (.marked Marker.spliceUnquote.symbol operand :: items)
        (ρ.append (ρ.eval operand) rest)
  | item {item : Datum} {items : List Datum} {value rest : V}
      (noUnquote : item.isSymbol Marker.unquote.symbol = false) (noSplice : spliced? item = none)
      (filled : Fills item value) (behind : FillsItems items rest) :
      FillsItems (item :: items) (ρ.prepend value rest)

end

inductive Elements : List Datum → List V → Prop
  | nil : Elements [] []
  | tail {operand : Datum} {values : List V} (yields : ρ.eval operand = ρ.list values) :
      Elements [.symbol Marker.unquote.symbol, operand] values
  | splice {operand : Datum} {items : List Datum} {values rest : List V}
      (yields : ρ.eval operand = ρ.list values) (behind : Elements items rest) :
      Elements (.marked Marker.spliceUnquote.symbol operand :: items) (values ++ rest)
  | item {item : Datum} {items : List Datum} {value : V} {rest : List V}
      (noUnquote : item.isSymbol Marker.unquote.symbol = false) (noSplice : spliced? item = none)
      (filled : Fills ρ item value) (behind : Elements items rest) :
      Elements (item :: items) (value :: rest)

variable {ρ}

theorem Elements.fills {items : List Datum} {values : List V} (elements : Elements ρ items values) :
    FillsItems ρ items (ρ.list values) := by
  induction elements with
  | nil => exact .nil
  | tail yields =>
    rw [← yields]
    exact .tail
  | splice yields behind ih =>
    rw [← ρ.append_list, ← yields]
    exact .splice ih
  | item noUnquote noSplice filled behind ih => exact .item noUnquote noSplice filled ih

section Expansion

variable {item : Datum} {items : List Datum} {links : List Link} {tail : Datum}

theorem bind_eq_ok {result : Except Flaw α} {next : α → Except Flaw β} {b : β} :
    result >>= next = .ok b ↔ ∃ a, result = .ok a ∧ next a = .ok b := by
  cases result with
  | error flaw => simp [bind, Except.bind]
  | ok a => simp [bind, Except.bind]

theorem isSymbol_iff {name : String} : item.isSymbol name = true ↔ item = .symbol name := by
  cases item <;> simp [Datum.isSymbol, Datum.symbol?]

theorem spliced?_eq_some {operands : List Datum} :
    spliced? item = some operands ↔
      item = .list (.symbol Marker.spliceUnquote.symbol :: operands) := by
  unfold spliced?
  split
  · next head others =>
    rw [Option.ite_none_right_eq_some, isSymbol_iff]
    simp
  · next other =>
    simp only [reduceCtorEq, false_iff]
    rintro rfl
    exact other _ _ rfl

theorem expand_atom (isAtom : item.items? = none) : expand item = .ok (quote item) := by
  cases item with
  | list items => simp [Datum.items?] at isAtom
  | _ => rfl

theorem chain_tail (operand : Datum) :
    chain [.symbol Marker.unquote.symbol, operand] = .ok ([], operand) := by
  rw [chain, if_pos (isSymbol_iff.mpr rfl)]

theorem chain_splice {operand : Datum} (behind : chain items = .ok (links, tail)) :
    chain (.marked Marker.spliceUnquote.symbol operand :: items) =
      .ok (.concat operand :: links, tail) := by
  have splice : spliced? (.marked Marker.spliceUnquote.symbol operand) = some [operand] :=
    spliced?_eq_some.mpr rfl
  unfold chain
  rw [if_neg (by simp [isSymbol_iff, Datum.marked]), splice]
  simp only [behind]
  rfl

theorem chain_item {head : Datum} (noUnquote : item.isSymbol Marker.unquote.symbol = false)
    (noSplice : spliced? item = none) (expanded : expand item = .ok head)
    (behind : chain items = .ok (links, tail)) :
    chain (item :: items) = .ok (.cons head :: links, tail) := by
  unfold chain
  rw [if_neg (by simp [noUnquote]), noSplice]
  simp only [expanded, behind]
  rfl

theorem chain_cons_eq_ok (chained : chain (item :: items) = .ok (links, tail)) :
    (item = .symbol Marker.unquote.symbol ∧ items = [tail] ∧ links = []) ∨
    (∃ operand more, item = .marked Marker.spliceUnquote.symbol operand ∧
      chain items = .ok (more, tail) ∧ links = .concat operand :: more) ∨
    (item.isSymbol Marker.unquote.symbol = false ∧ spliced? item = none ∧
      ∃ head more, expand item = .ok head ∧ chain items = .ok (more, tail) ∧
        links = .cons head :: more) := by
  unfold chain at chained
  split at chained
  · next isUnquote =>
    split at chained
    · cases chained
      exact .inl ⟨isSymbol_iff.mp isUnquote, rfl, rfl⟩
    · cases chained
  · next noUnquote =>
    split at chained
    · next operand splice =>
      rcases bind_eq_ok.mp chained with ⟨⟨more, last⟩, behind, whole⟩
      cases whole
      exact .inr (.inl ⟨operand, more, spliced?_eq_some.mp splice, behind, rfl⟩)
    · cases chained
    · next noSplice =>
      rcases bind_eq_ok.mp chained with ⟨head, expanded, rest⟩
      rcases bind_eq_ok.mp rest with ⟨⟨more, last⟩, behind, whole⟩
      cases whole
      exact .inr (.inr ⟨by simpa using noUnquote, noSplice, head, more, expanded, behind, rfl⟩)

end Expansion

mutual

theorem fills_expand (ρ : Evaluator V) (template : Datum) {expansion : Datum}
    (expanded : expand template = .ok expansion) : Fills ρ template (ρ.eval expansion) := by
  match template with
  | .list items =>
    rw [expand] at expanded
    rcases bind_eq_ok.mp expanded with ⟨⟨links, tail⟩, chained, whole⟩
    cases whole
    exact .list (fills_chain ρ items chained)
  | .integer _ | .float _ | .string _ | .bool _ | .nil | .symbol _ =>
    cases expanded
    rw [ρ.eval_quote]
    exact .atom rfl

theorem fills_chain (ρ : Evaluator V) (items : List Datum) {links : List Link} {tail : Datum}
    (chained : chain items = .ok (links, tail)) :
    FillsItems ρ items (ρ.eval (links.foldr Link.attach tail)) := by
  match items with
  | [] =>
    cases chained
    rw [List.foldr_nil, ρ.eval_quote]
    exact .nil
  | item :: items =>
    rcases chain_cons_eq_ok chained with ⟨rfl, rfl, rfl⟩ | ⟨operand, more, rfl, behind, rfl⟩ |
      ⟨noUnquote, noSplice, head, more, expanded, behind, rfl⟩
    · exact .tail
    · rw [List.foldr_cons, Link.attach, ρ.eval_concat]
      exact .splice (fills_chain ρ items behind)
    · rw [List.foldr_cons, Link.attach, ρ.eval_cons]
      exact .item noUnquote noSplice (fills_expand ρ item expanded) (fills_chain ρ items behind)

end

mutual

theorem expand_of_fills {template : Datum} {value : V} :
    Fills ρ template value → ∃ expansion, expand template = .ok expansion ∧ ρ.eval expansion = value
  | .atom isAtom => ⟨_, expand_atom isAtom, ρ.eval_quote _⟩
  | .list filled => by
    rcases chain_of_fills filled with ⟨links, tail, chained, whole⟩
    exact ⟨_, by rw [expand, chained]; rfl, whole⟩

theorem chain_of_fills {items : List Datum} {value : V} :
    FillsItems ρ items value → ∃ links tail, chain items = .ok (links, tail) ∧
      ρ.eval (links.foldr Link.attach tail) = value
  | .nil => ⟨[], quote (.list []), by rw [chain], ρ.eval_quote _⟩
  | .tail => ⟨[], _, chain_tail _, rfl⟩
  | .splice behind => by
    rcases chain_of_fills behind with ⟨links, tail, chained, whole⟩
    refine ⟨_, _, chain_splice chained, ?_⟩
    rw [List.foldr_cons, Link.attach, ρ.eval_concat, whole]
  | .item noUnquote noSplice filled behind => by
    rcases expand_of_fills filled with ⟨head, expanded, first⟩
    rcases chain_of_fills behind with ⟨links, tail, chained, whole⟩
    refine ⟨_, _, chain_item noUnquote noSplice expanded chained, ?_⟩
    rw [List.foldr_cons, Link.attach, ρ.eval_cons, first, whole]

end

/-- The expansion of a template evaluates to what the template describes, and to nothing else. Where
that is a proper list, its elements are those of the items in order, with splices flattened. -/
theorem eval_expansion_iff (ρ : Evaluator V) (template expansion : Datum)
    (expanded : expand template = .ok expansion) :
    (∀ value, Fills ρ template value ↔ value = ρ.eval expansion) ∧
      ∀ items values, template = .list items → Elements ρ items values →
        ρ.eval expansion = ρ.list values := by
  have only : ∀ value, Fills ρ template value → value = ρ.eval expansion := by
    intro value filled
    rcases expand_of_fills filled with ⟨other, again, evaluates⟩
    rw [expanded] at again
    cases again
    exact evaluates.symm
  constructor
  · intro value
    constructor
    · exact only value
    · rintro rfl
      exact fills_expand ρ template expanded
  · rintro items values rfl elements
    exact (only _ (.list elements.fills)).symm

inductive Value where
  | leaf (datum : Datum)
  | pair (first rest : Value)

namespace Value

mutual

def ofDatum : Datum → Value
  | .list items => ofItems items
  | atom => leaf atom

def ofItems : List Datum → Value
  | [] => leaf (.list [])
  | item :: items => pair (ofDatum item) (ofItems items)

end

def append : Value → Value → Value
  | leaf _, value => value
  | pair first rest, value => pair first (rest.append value)

def eval (bound : String → Value) : Datum → Value
  | .list [.symbol "quote", datum] => ofDatum datum
  | .list [.symbol "cons", item, rest] => pair (eval bound item) (eval bound rest)
  | .list [.symbol "concat", items, rest] => (eval bound items).append (eval bound rest)
  | .symbol name => bound name
  | other => ofDatum other

def evaluator (bound : String → Value) : Evaluator Value where
  eval := eval bound
  quoted := ofDatum
  prepend := pair
  append := append
  eval_quote _ := by rw [quote, Datum.marked, Marker.symbol, eval]
  eval_cons _ _ := by rw [eval]
  eval_concat _ _ := by rw [eval]
  empty_append _ := rfl
  prepend_append _ _ _ := rfl

end Value

/-- `(a ~@xs (~x) unquote rest)` -/
def mixedItems : List Datum :=
  [.symbol "a", .marked Marker.spliceUnquote.symbol (.symbol "xs"),
    .list [.marked Marker.unquote.symbol (.symbol "x")], .symbol Marker.unquote.symbol,
    .symbol "rest"]

/-- With `xs` bound to `(1 2)`, `x` to `3` and `rest` to `(4)`, the list is `(a 1 2 (3) 4)`. -/
def mixedBinding : String → Value
  | "xs" => .ofDatum (.list [.integer 1, .integer 2])
  | "x" => .ofDatum (.integer 3)
  | _ => .ofDatum (.list [.integer 4])

theorem eval_expansion_mixed : ∃ expansion, expand (.list mixedItems) = .ok expansion ∧
    Value.eval mixedBinding expansion =
      .ofDatum (.list [.symbol "a", .integer 1, .integer 2, .list [.integer 3], .integer 4]) := by
  refine ⟨_, rfl, ?_⟩
  let ρ := Value.evaluator mixedBinding
  have inner : Fills ρ (.list [.marked Marker.unquote.symbol (.symbol "x")])
      (.ofDatum (.list [.integer 3])) := .list (.item rfl rfl (.list .tail) .nil)
  have rest : Elements ρ [.symbol Marker.unquote.symbol, .symbol "rest"] [.ofDatum (.integer 4)] :=
    .tail rfl
  have spliced : ρ.eval (.symbol "xs") = ρ.list [.ofDatum (.integer 1), .ofDatum (.integer 2)] := rfl
  have elements : Elements ρ mixedItems _ :=
    .item rfl rfl (.atom rfl) (.splice spliced (.item rfl rfl inner rest))
  exact (eval_expansion_iff ρ (.list mixedItems) _ rfl).2 mixedItems _ rfl elements

end LispCompiler.Template
