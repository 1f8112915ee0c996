import LispCompiler.Proofs.Compiler.Positions
import LispCompiler.Proofs.Datum.Height
import LispCompiler.Proofs.Datum.Instantiation

namespace LispCompiler

namespace Datum

mutual

def occurrences (name : String) : Datum → Nat
  | list items => occurrencesList name items
  | symbol other => if other = name then 1 else 0
  | _ => 0

def occurrencesList (name : String) : List Datum → Nat
  | [] => 0
  | item :: items => item.occurrences name + occurrencesList name items

end

section Members

variable {item : Datum} {items : List Datum}

theorem occurrences_le_of_mem (name : String) (member : item ∈ items) :
    item.occurrences name ≤ occurrencesList name items := by
  apply measure_le_of_mem _ _ member
  all_goals
    intro item items
    rw [occurrencesList]
    omega

theorem size_le_of_mem (member : item ∈ items) : item.size ≤ sizeList items := by
  apply measure_le_of_mem _ _ member
  all_goals
    intro item items
    rw [sizeList]
    omega

end Members

end Datum

namespace Template

open Datum

variable {name : String}

def inserted : List String :=
  [Marker.quote.symbol, "cons", "concat"]

theorem occurrences_quote (foreign : name ∉ inserted) (datum : Datum) :
    (quote datum).occurrences name = datum.occurrences name := by
  have other : Marker.quote.symbol ≠ name := fun same => foreign (by simp [inserted, same])
  simp [quote, marked, Datum.occurrences, occurrencesList, other]

theorem occurrences_cons (foreign : name ∉ inserted) (item rest : Datum) :
    ((Link.cons item).attach rest).occurrences name = item.occurrences name + rest.occurrences name := by
  have other : "cons" ≠ name := fun same => foreign (by simp [inserted, same])
  simp [Link.attach, Datum.occurrences, occurrencesList, other]

theorem occurrences_concat (foreign : name ∉ inserted) (items rest : Datum) :
    ((Link.concat items).attach rest).occurrences name =
      items.occurrences name + rest.occurrences name := by
  have other : "concat" ≠ name := fun same => foreign (by simp [inserted, same])
  simp [Link.attach, Datum.occurrences, occurrencesList, other]

mutual

theorem occurrences_expand (foreign : name ∉ inserted) (template : Datum) {expanded : Datum}
    (expands : expand template = .ok expanded) :
    expanded.occurrences name ≤ template.occurrences name := by
  cases template with
  | list items =>
    rw [expand] at expands
    rcases bind_eq_ok.mp expands with ⟨⟨links, tail⟩, chained, whole⟩
    cases whole
    rw [Datum.occurrences]
    exact occurrences_chain foreign items chained
  | _ =>
    cases expands
    exact Nat.le_of_eq (occurrences_quote foreign _)

theorem occurrences_chain (foreign : name ∉ inserted) (items : List Datum) {links : List Link}
    {tail : Datum} (chained : chain items = .ok (links, tail)) :
    (links.foldr Link.attach tail).occurrences name ≤ occurrencesList name items := by
  cases items with
  | nil =>
    rw [chain] at chained
    cases chained
    exact Nat.le_of_eq (occurrences_quote foreign _)
  | cons item items =>
    rcases chain_cons_eq_ok chained with ⟨-, rfl, rfl⟩ | ⟨operand, more, rfl, behind, rfl⟩ |
      ⟨-, -, head, more, expands, behind, rfl⟩
    · simp [occurrencesList]
    · have others := occurrences_chain foreign items behind
      rw [List.foldr_cons, occurrences_concat foreign]
      simp only [occurrencesList, marked, Datum.occurrences]
      omega
    · have first := occurrences_expand foreign item expands
      have others := occurrences_chain foreign items behind
      rw [List.foldr_cons, occurrences_cons foreign, occurrencesList]
      omega

end

end Template

def Datum.Occurs (part : Datum) (data : List Datum) : Prop :=
  part ∈ data ∨ ∃ items, .list items ∈ data ∧ part ∈ items

namespace Datum.Occurs

variable {part : Datum} {data : List Datum}

theorem occurrences_le (name : String) (occurs : Occurs part data) :
    part.occurrences name ≤ occurrencesList name data := by
  rcases occurs with member | ⟨items, member, inside⟩
  · exact occurrences_le_of_mem name member
  · have outer := occurrences_le_of_mem name member
    rw [Datum.occurrences] at outer
    exact Nat.le_trans (occurrences_le_of_mem name inside) outer

theorem size_le (occurs : Occurs part data) : part.size ≤ sizeList data := by
  rcases occurs with member | ⟨items, member, inside⟩
  · exact size_le_of_mem member
  · have outer := size_le_of_mem member
    have inner := size_le_of_mem inside
    rw [Datum.size] at outer
    omega

theorem height_le (occurs : Occurs part data) : part.height ≤ heightList data := by
  rcases occurs with member | ⟨items, member, inside⟩
  · exact height_le_of_mem member
  · have outer := height_le_of_mem member
    have inner := height_le_of_mem inside
    rw [Datum.height] at outer
    omega

end Datum.Occurs

theorem SpecialForm.compiled?_occurs {form : SpecialForm} {args parts : List Datum} {part : Datum}
    (other : form ≠ .quasiquote) (fits : form.compiled? args = some parts) (compiled : part ∈ parts) :
    part.Occurs args := by
  have rest : ∀ {first : Datum} {others : List Datum}, some others = some parts →
      part.Occurs (first :: others) := by
    rintro first _ ⟨⟩
    exact .inl (List.mem_cons_of_mem _ compiled)
  unfold SpecialForm.compiled? at fits
  split at fits
  · next callee list => exact .inl (Option.some.inj fits ▸ compiled)
  · next callee => exact .inl (Option.some.inj fits ▸ compiled)
  · next name value =>
    split at fits
    · exact rest fits
    · cases fits
  · next name expander =>
    split at fits
    · exact rest fits
    · cases fits
  · next nodes => exact .inl (Option.some.inj fits ▸ compiled)
  · next params nodes =>
    split at fits
    · exact rest fits
    · cases fits
  · next predicate thenArm elseArm => exact .inl (Option.some.inj fits ▸ compiled)
  · next receiver message arguments =>
    split at fits
    · -- a message that is written out is not compiled
      cases fits
      rcases List.mem_cons.mp compiled with rfl | compiled
      · exact .inl List.mem_cons_self
      · exact .inl (List.mem_cons_of_mem _ (List.mem_cons_of_mem _ compiled))
    · exact .inl (Option.some.inj fits ▸ compiled)
  · next template => exact absurd rfl other
  · next datum =>
    split at fits
    · cases fits
      cases compiled
    · cases fits
  · next node clause =>
    split at fits
    · next binding handler =>
      cases fits
      simp only [List.mem_cons, List.not_mem_nil, or_false] at compiled
      -- the handler stands one list deeper than the operands
      rcases compiled with rfl | rfl
      · exact .inl (by simp)
      · exact .inr ⟨_, List.mem_cons_of_mem _ List.mem_cons_self, by simp⟩
    · cases fits
  · cases fits

namespace Expanders

variable {items : List Datum} {part : Datum}

theorem none_parts_cases (compiled : part ∈ none.parts (.list items)) :
    (∃ template, items = [.symbol SpecialForm.quasiquote.name, template] ∧
      Template.expand template = .ok part) ∨ part.Occurs items := by
  cases items with
  | nil => cases compiled
  | cons head args =>
    rcases SpecialForm.named_or_ordinary head with ⟨form, rfl⟩ | ordinary
    · rw [parts_special] at compiled
      cases fits : form.compiled? args with
      | none => simp [fits] at compiled
      | some parts =>
        rw [fits, Option.getD_some] at compiled
        by_cases isTemplate : form = .quasiquote
        · subst isTemplate
          rcases SpecialForm.quasiquote_compiled?.mp fits with ⟨template, expanded, rfl, -, expands, rfl⟩
          obtain rfl := List.mem_singleton.mp compiled
          exact .inl ⟨template, rfl, expands⟩
        · rcases SpecialForm.compiled?_occurs isTemplate fits compiled with member | ⟨inner, member, inside⟩
          · exact .inr (.inl (List.mem_cons_of_mem _ member))
          · exact .inr (.inr ⟨inner, List.mem_cons_of_mem _ member, inside⟩)
    · rw [none_parts_application ordinary] at compiled
      exact .inr (.inl compiled)

theorem none_parts_occurrences {name : String} (foreign : name ∉ Template.inserted)
    (compiled : part ∈ none.parts (.list items)) :
    part.occurrences name ≤ (Datum.list items).occurrences name := by
  rw [Datum.occurrences]
  rcases none_parts_cases compiled with ⟨template, rfl, expands⟩ | occurs
  · have fewer := Template.occurrences_expand foreign template expands
    simp only [Datum.occurrencesList]
    omega
  · exact occurs.occurrences_le name

/-- Compiling puts no symbols in the compiled positions that were not in the form. -/
theorem none_compiles_occurrences {name : String} (foreign : name ∉ Template.inserted)
    {node inner : Datum} (compiles : none.Compiles node inner) :
    inner.occurrences name ≤ node.occurrences name := by
  induction compiles with
  | here => exact Nat.le_refl _
  | @within node part inner compiled inside ih =>
    cases node with
    | list items => exact Nat.le_trans ih (none_parts_occurrences foreign compiled)
    | _ => cases compiled

/-- A special form is not compiled where its name does not occur. -/
theorem none_compiles_not_special {form : SpecialForm} (foreign : form.name ∉ Template.inserted)
    {node inner : Datum} (absent : node.occurrences form.name = 0) (compiles : none.Compiles node inner) :
    ¬inner.IsSpecial form := by
  intro isSpecial
  rcases isSpecial with ⟨args, rfl⟩
  have fewer := none_compiles_occurrences foreign compiles
  simp only [absent, Datum.occurrences, Datum.occurrencesList, if_pos] at fewer
  omega

/-- What is compiled for a list is smaller than the list, in the number of templates or else in
size. -/
theorem none_parts_smaller (compiled : part ∈ none.parts (.list items)) :
    part.occurrences SpecialForm.quasiquote.name <
        (Datum.list items).occurrences SpecialForm.quasiquote.name ∨
      part.occurrences SpecialForm.quasiquote.name ≤
        (Datum.list items).occurrences SpecialForm.quasiquote.name ∧
      part.size < (Datum.list items).size := by
  rcases none_parts_cases compiled with ⟨template, rfl, expands⟩ | occurs
  · have foreign : SpecialForm.quasiquote.name ∉ Template.inserted := by decide
    have fewer := Template.occurrences_expand foreign template expands
    simp only [Datum.occurrences, Datum.occurrencesList, if_pos]
    omega
  · have fewer := occurs.occurrences_le SpecialForm.quasiquote.name
    have smaller := occurs.size_le
    simp only [Datum.occurrences, Datum.size]
    omega

end Expanders

/-- How many lists are compiled within each other, with no macros. -/
def nesting (node : Datum) : Nat :=
  match node with
  | .list items =>
    1 + ((Expanders.none.parts (.list items)).attach.map fun ⟨part, _⟩ => nesting part).foldr max 0
  | _ => 0
termination_by (node.occurrences SpecialForm.quasiquote.name, node.size)
decreasing_by
  simp only [Prod.lex_def]
  have := Expanders.none_parts_smaller ‹_›
  omega

theorem nesting_atom {node : Datum} (isAtom : node.items? = none) : nesting node = 0 := by
  cases node with
  | list items => cases isAtom
  | _ =>
    rw [nesting]
    nofun

theorem foldr_max_le {values : List Nat} {bound : Nat} :
    values.foldr max 0 ≤ bound ↔ ∀ value ∈ values, value ≤ bound := by
  induction values with
  | nil => simp
  | cons value values ih => rw [List.foldr_cons, Nat.max_le, ih, List.forall_mem_cons]

theorem nesting_list_le {items : List Datum} {level bound : Nat} :
    level + nesting (.list items) ≤ bound ↔ level < bound ∧
      ∀ part ∈ Expanders.none.parts (.list items), level + 1 + nesting part ≤ bound := by
  rw [nesting]
  by_cases room : level < bound
  · rcases Nat.exists_eq_add_of_lt room with ⟨rest, rfl⟩
    have within : ∀ depth, level + (1 + depth) ≤ level + rest + 1 ↔ depth ≤ rest := by omega
    have inside : ∀ depth, level + 1 + depth ≤ level + rest + 1 ↔ depth ≤ rest := by omega
    simp [within, inside, foldr_max_le, room]
  · exact iff_of_false (by omega) (fun held => room held.1)

end LispCompiler
