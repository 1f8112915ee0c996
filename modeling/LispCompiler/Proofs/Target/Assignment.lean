import LispCompiler.Proofs.Target.Grouping

namespace LispCompiler

open Nesting

/-- The text begins with an identifier of one of the targets and an equals sign between blanks. -/
def IsAssignment (text : String) : Prop :=
  ∃ name value : String, isIdentifier (· == '$') name.toList ∧ text = name ++ " = " ++ value

section Texts

variable {text more : String} {front : List Char} {mark : Char}

theorem IsAssignment.exists_simple (assigns : IsAssignment text) :
    ∃ name rest : List Char, (∀ c ∈ name, isSimple c) ∧ text.toList = name ++ ' ' :: rest := by
  rcases assigns with ⟨name, value, identifier, rfl⟩
  refine ⟨name.toList, '=' :: ' ' :: value.toList, isName_simple identifier, ?_⟩
  simp

theorem not_isAssignment_of_tight (tight : Tight text) : ¬IsAssignment text := by
  intro assigns
  rcases assigns.exists_simple with ⟨name, rest, simple, split⟩
  have scanned : scan name .start = some .start :=
    scan_plain fun c member => isPlain_of_isSimple (simple c member)
  exact tight name ' ' rest split (by decide) scanned

/-- A mark that no name has comes before the first blank. -/
theorem not_isAssignment_of_front (noBlank : ' ' ∉ front ++ [mark]) (other : isSimple mark = false)
    (starts : front ++ [mark] <+: text.toList) : ¬IsAssignment text := by
  intro assigns
  rcases assigns.exists_simple with ⟨name, rest, simple, split⟩
  have named : name ++ [' '] <+: text.toList := ⟨rest, by rw [split, List.append_assoc]; rfl⟩
  rcases List.prefix_or_prefix_of_prefix starts named with shorter | longer
  · have member : mark ∈ name ++ [' '] := shorter.subset (by simp)
    rcases List.mem_append.mp member with inName | blank
    · simp [simple mark inName] at other
    · rw [List.mem_singleton.mp blank] at noBlank
      simp at noBlank
  · exact noBlank (longer.subset (by simp))

theorem not_isAssignment_of_blank (starts : [' '] <+: text.toList) : ¬IsAssignment text := by
  intro assigns
  rcases assigns with ⟨name, value, identifier, rfl⟩
  have simple := isName_simple identifier
  cases characters : name.toList with
  | nil =>
    rw [characters] at identifier
    cases identifier
  | cons c rest =>
    rw [String.toList_append, String.toList_append, characters] at starts
    rw [characters] at simple
    have blank : ' ' = c := (List.cons_prefix_cons.mp starts).1
    exact absurd (simple c List.mem_cons_self) (by rw [← blank]; decide)

theorem starts_append (starts : front <+: text.toList) : front <+: (text ++ more).toList := by
  rw [String.toList_append]
  exact starts.trans (List.prefix_append _ _)

theorem not_isAssignment_of_paren (starts : ['('] <+: text.toList) : ¬IsAssignment text :=
  @not_isAssignment_of_front text [] '(' (by decide) (by decide) starts

theorem not_isAssignment_of_grouped (grouped : Grouped text) : ¬IsAssignment text :=
  not_isAssignment_of_tight grouped.isTight

end Texts

section Constructs

variable (target : Target)

theorem not_isAssignment_sequence (exprs : List String) : ¬IsAssignment (target.sequence exprs) := by
  apply not_isAssignment_of_paren
  cases target with
  | ruby => exact starts_append (starts_append ⟨[], rfl⟩)
  | javascript =>
    simp only [Target.sequence, JavaScript.sequence]
    split
    · exact ⟨_, rfl⟩
    · exact starts_append (starts_append ⟨[], rfl⟩)

theorem not_isAssignment_lambda (params : List String) (rest : Option String) (locals : List String)
    (body : String) : ¬IsAssignment (target.lambda params rest locals body) := by
  cases target with
  | ruby =>
    refine @not_isAssignment_of_front _ ['-'] '>' (by decide) (by decide) ?_
    exact starts_append (starts_append (starts_append (starts_append ⟨_, rfl⟩)))
  | javascript =>
    apply not_isAssignment_of_paren
    simp only [Target.lambda, JavaScript.lambda]
    split
    · exact starts_append (starts_append (starts_append (starts_append ⟨_, rfl⟩)))
    · iterate 6 apply starts_append
      exact ⟨_, rfl⟩

theorem not_isAssignment_conditional (predicate thenArm elseArm : String) :
    ¬IsAssignment (Target.conditional predicate thenArm elseArm) := by
  apply not_isAssignment_of_paren
  unfold Target.conditional
  iterate 6 apply starts_append
  exact ⟨[], rfl⟩

theorem not_isAssignment_guard (body binding handler : String) :
    ¬IsAssignment (target.guard body binding handler) := by
  cases target with
  | ruby =>
    refine @not_isAssignment_of_front _ ['b', 'e', 'g', 'i', 'n'] ';' (by decide) (by decide) ?_
    unfold Target.guard Ruby.guard
    iterate 6 apply starts_append
    exact ⟨_, rfl⟩
  | javascript =>
    apply not_isAssignment_of_paren
    unfold Target.guard JavaScript.guard
    iterate 6 apply starts_append
    exact ⟨_, rfl⟩

theorem not_isAssignment_symbol (name : String) : ¬IsAssignment (target.symbol name) := by
  cases target with
  | ruby =>
    refine @not_isAssignment_of_front _ [] ':' (by decide) (by decide) ?_
    simp only [Target.symbol, Ruby.symbol]
    split
    · exact starts_append ⟨[], rfl⟩
    · exact starts_append ⟨[], rfl⟩
  | javascript =>
    refine @not_isAssignment_of_front _ "Symbol.for".toList '(' (by decide) (by decide) ?_
    exact starts_append (starts_append ⟨[], rfl⟩)

theorem not_isAssignment_literal (datum : Datum) : ¬IsAssignment (target.literal datum) := by
  cases datum with
  | list items =>
    refine @not_isAssignment_of_front _ [] '[' (by decide) (by decide) ?_
    unfold Target.literal
    exact starts_append (starts_append ⟨[], rfl⟩)
  | symbol name => exact not_isAssignment_symbol target name
  | integer value => exact not_isAssignment_of_grouped (grouped_of_simple (toString_simple value.toInt))
  | float value => exact not_isAssignment_of_grouped (grouped_of_simple (render_simple value))
  | string text => exact not_isAssignment_of_grouped (grouped_string target text)
  | bool value => exact not_isAssignment_of_grouped (grouped_bool value)
  | nil => exact not_isAssignment_of_grouped (grouped_nil target)

/-- A block has a mark of its own in Ruby only. -/
theorem not_isAssignment_block {function : String} (other : target ≠ .ruby → ¬IsAssignment function) :
    ¬IsAssignment (target.block function) := by
  cases target with
  | ruby =>
    refine @not_isAssignment_of_front _ [] '&' (by decide) (by decide) ?_
    exact starts_append ⟨[], rfl⟩
  | javascript => exact other (by decide)

/-- In JavaScript a definition is in parentheses, and in Ruby it is not. -/
theorem isAssignment_define_iff (name value : String) :
    IsAssignment (target.define (Identifier.ofName name) value) ↔ target = .ruby ∧ name ≠ "" := by
  cases target with
  | ruby =>
    constructor
    · intro assigns
      refine ⟨rfl, fun empty => ?_⟩
      subst empty
      refine not_isAssignment_of_blank ?_ assigns
      exact starts_append ⟨_, rfl⟩
    · intro named
      exact ⟨_, value, ofName_isIdentifier _ named.2, rfl⟩
  | javascript =>
    refine iff_of_false (not_isAssignment_of_paren ?_) (by simp)
    iterate 4 apply starts_append
    exact ⟨[], rfl⟩

end Constructs

end LispCompiler
