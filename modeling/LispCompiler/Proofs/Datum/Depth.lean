import Mathlib
import LispCompiler.Proofs.Datum.Concatenation
import LispCompiler.Proofs.Datum.Machine
import LispCompiler.Proofs.Datum.Recovery

/-!
The depth of a datum, counted in two other ways. Whichever of the data that are still to be visited comes
next, the visits end and come to the height. Where a datum is read, its depth is the largest number of its
lists and quote marks that are open at once. Main statement: these numbers are the same for every datum,
so what can be read is within the limit on nesting.
-/

namespace LispCompiler

open Relation (ReflTransGen)

namespace Datum

section Visiting

variable {datum : Datum} {level best : Nat} {pending rest later : Pending} {state next : Pending × Nat}

def opened : Datum → Nat → Pending
  | list items, level => items.map (·, level + 1)
  | _, _ => []

def noted : Datum → Nat → Nat
  | list _, level => level + 1
  | _, _ => 0

/-- One visit, in any order: some datum is taken out of what is pending, and its items are put anywhere.
The largest level so far stands beside. -/
inductive Visits : Pending × Nat → Pending × Nat → Prop
  | visit {datum : Datum} {level best : Nat} {pending rest later : Pending}
      (taken : pending.Perm ((datum, level) :: rest)) (put : later.Perm (datum.opened level ++ rest)) :
      Visits (pending, best) (later, max best (datum.noted level))

theorem reach_eq_max (datum : Datum) (level : Nat) :
    datum.reach level = max (datum.noted level) (Pending.reach (datum.opened level)) := by
  cases datum with
  | list items =>
    rw [noted, opened, Pending.reach_items, Datum.reach, height, Nat.add_assoc]
  | _ => rfl

theorem Pending.reach_perm {left right : Pending} (perm : left.Perm right) : left.reach = right.reach := by
  induction perm with
  | nil => rfl
  | cons entry _ ih => simp only [Pending.reach, ih]
  | swap first second _ => simp only [Pending.reach, Nat.max_left_comm]
  | trans _ _ first second => exact first.trans second

theorem Pending.size_perm {left right : Pending} (perm : left.Perm right) : left.size = right.size := by
  induction perm with
  | nil => rfl
  | cons entry _ ih => exact congrArg (entry.1.size + ·) ih
  | swap first second _ => exact Nat.add_left_comm _ _ _
  | trans _ _ first second => exact first.trans second

theorem Visits.reach_eq (visits : Visits state next) :
    max next.2 next.1.reach = max state.2 state.1.reach := by
  cases visits with
  | @visit datum level best pending rest later taken put =>
    calc max (max best (datum.noted level)) later.reach
        = max best (max (max (datum.noted level) (Pending.reach (datum.opened level))) rest.reach) := by
          rw [Pending.reach_perm put, Pending.reach_append]
          simp only [Nat.max_assoc]
      _ = max best pending.reach := by
          rw [Pending.reach_perm taken, Pending.reach, reach_eq_max]

theorem size_opened (datum : Datum) (level : Nat) : (datum.opened level).size < datum.size := by
  cases datum with
  | list items => simp [opened, Pending.size, size, Function.comp_def]
  | _ => exact Nat.one_pos

/-- A visit takes a datum out and puts only the data inside it back. -/
theorem Visits.size_lt (visits : Visits state next) : next.1.size < state.1.size := by
  cases visits with
  | @visit datum level best pending rest later taken put =>
    have less := size_opened datum level
    calc later.size = (datum.opened level).size + rest.size := by
          rw [Pending.size_perm put, Pending.size, List.map_append, sizeList_append]
          rfl
      _ < datum.size + rest.size := Nat.add_lt_add_right less _
      _ = pending.size := (Pending.size_perm taken).symm

theorem visits_first (datum : Datum) (level best : Nat) (rest : Pending) :
    Visits ((datum, level) :: rest, best) (datum.opened level ++ rest, max best (datum.noted level)) :=
  .visit (.refl _) (.refl _)

theorem visits_deepest (pending : Pending) (best : Nat) :
    ReflTransGen Visits (pending, best) ([], deepest pending best) := by
  fun_induction deepest pending best with
  | case1 best => exact .refl
  | case2 best items level rest ih =>
    simp only [List.map_subtype, List.unattach_attach] at ih
    exact .head (visits_first (list items) level best rest) ih
  | case3 best atom level rest noList _ ih =>
    have flat : atom.opened level = [] ∧ atom.noted level = 0 := by
      cases atom with
      | list items => exact absurd rfl (noList items)
      | _ => exact ⟨rfl, rfl⟩
    have visited := visits_first atom level best rest
    rw [flat.1, flat.2, List.nil_append, Nat.max_zero] at visited
    exact .head visited ih

theorem acc_visits (state : Pending × Nat) : Acc (fun next state => Visits state next) state := by
  have smaller : WellFounded fun next state : Pending × Nat => next.1.size < state.1.size :=
    (measure fun state : Pending × Nat => state.1.size).wf
  exact Subrelation.accessible (fun visits => visits.size_lt) (smaller.apply state)

theorem reach_of_visits (run : ReflTransGen Visits ([(datum, 0)], 0) state) :
    max state.2 state.1.reach = datum.height := by
  induction run with
  | refl => rw [← deepest_eq, ← depth, depth_eq_height]
  | tail _ visits ih => exact visits.reach_eq.trans ih

/-- Where no more visit is possible, nothing is pending and the largest level is the height. -/
theorem eq_height_of_visits (run : ReflTransGen Visits ([(datum, 0)], 0) state)
    (ended : ∀ next, ¬Visits state next) : state = ([], datum.height) := by
  have kept := reach_of_visits run
  rcases state with ⟨pending, best⟩
  cases pending with
  | nil => rw [← kept, Pending.reach, Nat.max_zero]
  | cons entry rest => exact absurd (visits_first entry.1 entry.2 best rest) (ended _)

end Visiting

end Datum

open Grammar

namespace OpenForm

section Counting

variable {stack later : Stack} {token : Token} {tokens : List Token} {bound : Nat}

/-- The numbers of lists and quote marks that are open in front of the tokens, between them and behind
them. -/
def openCounts (stack : Stack) (tokens : List Token) : Set Nat :=
  {count | ∃ seen opened, seen <+: tokens ∧ TakesAll stack seen opened ∧ opened.length = count}

theorem length_mem_openCounts (stack : Stack) (tokens : List Token) : stack.length ∈ openCounts stack tokens :=
  ⟨[], stack, ⟨tokens, rfl⟩, .nil, rfl⟩

theorem openCounts_nil (stack : Stack) : openCounts stack [] = {stack.length} := by
  refine Set.Subset.antisymm ?_ (Set.singleton_subset_iff.mpr (length_mem_openCounts stack []))
  intro count member
  obtain ⟨seen, opened, front, taken, rfl⟩ := member
  obtain rfl := List.prefix_nil.mp front
  cases taken
  rfl

theorem openCounts_cons (takes : Takes stack token later) :
    openCounts stack (token :: tokens) = insert stack.length (openCounts later tokens) := by
  apply Set.Subset.antisymm
  · intro count member
    obtain ⟨seen, opened, front, taken, rfl⟩ := member
    cases taken with
    | nil => exact Set.mem_insert _ _
    | cons first others =>
      obtain ⟨rfl, shorter⟩ := List.cons_prefix_cons.mp front
      obtain rfl : _ = later := Except.ok.inj (first.advance_eq.symm.trans takes.advance_eq)
      exact Set.mem_insert_of_mem _ ⟨_, opened, shorter, others, rfl⟩
  · refine Set.insert_subset (length_mem_openCounts stack _) ?_
    intro count member
    obtain ⟨seen, opened, front, taken, rfl⟩ := member
    exact ⟨token :: seen, opened, List.cons_prefix_cons.mpr ⟨rfl, front⟩, .cons takes taken, rfl⟩

theorem isGreatest_cons (takes : Takes stack token later) (behind : IsGreatest (openCounts later tokens) bound) :
    IsGreatest (openCounts stack (token :: tokens)) (max stack.length bound) := by
  rw [openCounts_cons takes]
  exact behind.insert _

theorem isGreatest_comment (kind : token.kind = .comment)
    (behind : IsGreatest (openCounts stack tokens) bound) :
    IsGreatest (openCounts stack (token :: tokens)) bound := by
  have least : stack.length ≤ bound := behind.2 (length_mem_openCounts stack tokens)
  have whole := isGreatest_cons (.comment kind) behind
  rwa [Nat.max_eq_right least] at whole

theorem isGreatest_comments {comments : List Token} (skipped : Comments comments)
    (behind : IsGreatest (openCounts stack tokens) bound) :
    IsGreatest (openCounts stack (comments ++ tokens)) bound := by
  induction comments with
  | nil => exact behind
  | cons comment comments ih =>
    obtain ⟨kind, others⟩ := List.forall_mem_cons.mp skipped
    exact isGreatest_comment kind (ih others)

mutual

/-- Over the tokens of a form, as many more lists and quote marks are open at once as the form is high. -/
theorem isGreatest_form : ∀ {level : Nat} {tokens : List Token} {datum : Datum}, Form level tokens datum →
    ∀ {stack : Stack} {more : List Token} {bound : Nat}, stack.length = level →
      IsGreatest (openCounts (complete stack) more) bound →
      IsGreatest (openCounts stack (tokens ++ more)) (max (level + datum.height) bound)
  | _, _, _, .atom single, stack, more, bound, length, behind => by
    rw [atom_height single, ← length]
    exact isGreatest_cons (.item single) behind
  | _, _, _, @Form.list level first last delimiter inner items opens closes shallow between, stack, more,
      bound, length, behind => by
    have closed := isGreatest_cons (@Takes.closing stack last first delimiter closes) behind
    have inside := isGreatest_forms between (congrArg (· + 1) length) rfl closed
    have whole := isGreatest_cons (.opening (.list opens) (length ▸ shallow)) inside
    have highest : max (level + (Datum.list items).height) bound = max stack.length
        (max (level + 1 + Datum.heightList items) (max (list first delimiter :: stack).length bound)) := by
      rw [Datum.height, List.length_cons]
      omega
    rw [List.cons_append, List.append_assoc, highest]
    exact whole
  | _, _, _, @Form.marked level first marker comments inner operand marks shallow skipped form, stack, more,
      bound, length, behind => by
    have inside := @isGreatest_form _ _ _ form (marked first :: stack) more bound (congrArg (· + 1) length) behind
    have whole := isGreatest_cons (.opening (.marked marks) (length ▸ shallow))
      (isGreatest_comments skipped inside)
    have highest : max (level + (Datum.marked marker.symbol operand).height) bound =
        max stack.length (max (level + 1 + operand.height) bound) := by
      simp only [Datum.marked, Datum.height, Datum.heightList]
      omega
    rw [List.cons_append, List.append_assoc, highest]
    exact whole

theorem isGreatest_forms : ∀ {level : Nat} {tokens : List Token} {data : List Datum}, Forms level tokens data →
    ∀ {stack : Stack} {more : List Token} {bound : Nat}, stack.length = level → complete stack = stack →
      IsGreatest (openCounts stack more) bound →
      IsGreatest (openCounts stack (tokens ++ more)) (max (level + Datum.heightList data) bound)
  | _, _, _, .nil, stack, more, bound, length, _, behind => by
    have least : stack.length ≤ bound := behind.2 (length_mem_openCounts stack more)
    rwa [Datum.heightList, Nat.add_zero, ← length, Nat.max_eq_right least]
  | _, _, _, .comment skipped others, stack, more, bound, length, settled, behind =>
    isGreatest_comment skipped (isGreatest_forms others length settled behind)
  | _, _, _, .form one others, stack, more, bound, length, settled, behind => by
    have later := isGreatest_forms others length settled behind
    have whole := isGreatest_form one length (settled.symm ▸ later)
    rw [List.append_assoc, Datum.heightList, ← Nat.add_max_add_left, Nat.max_assoc]
    exact whole

end

theorem length_complete_le (stack : Stack) : (complete stack).length ≤ stack.length := by
  fun_induction complete stack with
  | case1 first stack ih => exact Nat.le_succ_of_le ih
  | case2 stack => exact Nat.le_refl _

theorem isGreatest_openCounts {level : Nat} {datum : Datum} (form : Form level tokens datum)
    (length : stack.length = level) : IsGreatest (openCounts stack tokens) (level + datum.height) := by
  have least := length_complete_le stack
  have ended : IsGreatest (openCounts (complete stack) []) (complete stack).length := by
    rw [openCounts_nil]
    exact isGreatest_singleton
  have whole := isGreatest_form form length ended
  rwa [List.append_nil, Nat.max_eq_left (by omega)] at whole

end Counting

end OpenForm

namespace Grammar

variable {level other : Nat} {tokens : List Token} {datum : Datum}

theorem form_height_le (form : Form level tokens datum) : datum.height ≤ maxNesting - level := by
  rcases Nat.lt_or_ge maxNesting level with beyond | within
  · cases form with
    | atom single => exact atom_height single ▸ Nat.zero_le _
    | list _ _ shallow => omega
    | marked _ shallow => omega
  · have bounded := form_height within form
    omega

/-- The tokens of a form are those of the same form below other lists and quote marks just where these
leave room for its height. -/
theorem form_iff_height_le (form : Form level tokens datum) :
    Form other tokens datum ↔ datum.height ≤ maxNesting - other := by
  constructor
  · exact form_height_le
  · intro room
    have same : tokens.map (Token.placed Token.start) = tokens := List.map_id tokens
    rcases Nat.lt_or_ge maxNesting other with beyond | within
    · cases form with
      | atom single => exact .atom single
      | list =>
        rw [Datum.height] at room
        omega
      | marked =>
        rw [Datum.marked, Datum.height] at room
        omega
    · have placed : Form other (tokens.map (Token.placed Token.start)) datum :=
        form_placed form (by omega)
      rwa [same] at placed

theorem exists_form_of_mem {data : List Datum} (forms : Forms level tokens data) (member : datum ∈ data) :
    ∃ before taken behind, tokens = before ++ (taken ++ behind) ∧ Form level taken datum := by
  induction forms using forms_induction with
  | nil => cases member
  | @comment token _ _ _ _ ih =>
    obtain ⟨before, taken, behind, rfl, form⟩ := ih member
    exact ⟨token :: before, taken, behind, rfl, form⟩
  | @form first tokens _ _ one _ ih =>
    rcases List.mem_cons.mp member with rfl | member
    · exact ⟨[], first, tokens, rfl, one⟩
    · obtain ⟨before, taken, behind, rfl, form⟩ := ih member
      exact ⟨first ++ before, taken, behind, (List.append_assoc _ _ _).symm, form⟩

end Grammar

namespace Reader

variable {reader after : Reader} {datum : Datum}

theorem next_eq_some_iff : reader.next = .ok (some datum) after ↔
    ∃ taken, Consumes taken reader after ∧ Form reader.depth taken datum := by
  obtain ⟨tokens, level⟩ := reader
  have reads : Reads (readForm maxNesting) level := readForm_reads (Nat.le_add_right _ _)
  constructor
  · intro done
    cases (reads _ _ _).mp done with
    | @form _ first rest _ split one => exact ⟨first, ⟨split, rfl, form_ne_eof one⟩, one⟩
  · intro taken
    obtain ⟨taken, ⟨split, same, -⟩, one⟩ := taken
    obtain ⟨rest, depth⟩ := after
    obtain rfl : depth = level := same
    exact (reads _ _ _).mpr (.form split one)

/-- The reader's count of open forms has room for a datum just where the limit leaves its depth. -/
theorem next_eq_some_iff_depth_le (done : reader.next = .ok (some datum) after) (depth : Nat) :
    next ⟨reader.rest, depth⟩ = .ok (some datum) ⟨after.rest, depth⟩ ↔ datum.depth ≤ maxNesting - depth := by
  rw [Datum.depth_eq_height]
  obtain ⟨taken, ⟨split, -, inside⟩, form⟩ := next_eq_some_iff.mp done
  constructor
  · intro read
    obtain ⟨_, -, deeper⟩ := next_eq_some_iff.mp read
    exact form_height_le deeper
  · intro room
    exact next_eq_some_iff.mpr ⟨taken, ⟨split, rfl, inside⟩, (form_iff_height_le form).mpr room⟩

end Reader

namespace Datum

open OpenForm

/-- The depth is the height, which any order of visits comes to. It is also the largest number of lists
and quote marks of a datum that were open at once when it was read, which the reader's own limit bounds:
the datum is read below other open forms just where they leave that many levels. -/
theorem depth_isGreatest :
    (∀ datum : Datum, datum.depth = datum.height ∧
      ReflTransGen Visits ([(datum, 0)], 0) ([], datum.depth) ∧
      ∀ state, ReflTransGen Visits ([(datum, 0)], 0) state →
        Acc (fun next state => Visits state next) state ∧
          ((∀ next, ¬Visits state next) → state = ([], datum.depth))) ∧
    (∀ (reader after : Reader) (datum : Datum), reader.next = .ok (some datum) after →
      (∃ taken, Reader.Consumes taken reader after ∧
        ∀ stack : Stack, stack.length = reader.depth →
          IsGreatest (openCounts stack taken) (reader.depth + datum.depth)) ∧
      (∀ depth, Reader.next ⟨reader.rest, depth⟩ = .ok (some datum) ⟨after.rest, depth⟩ ↔
        datum.depth ≤ maxNesting - depth) ∧
      datum.depth ≤ maxNesting) ∧
    ∀ source data, readAll source = .ok data → ∀ datum ∈ data, ∃ before taken behind,
      Token.lex source = before ++ (taken ++ behind) ∧
      Reader.next ⟨taken ++ behind, 0⟩ = .ok (some datum) ⟨behind, 0⟩ ∧
      IsGreatest (openCounts [] taken) datum.depth ∧ datum.depth ≤ maxNesting := by
  refine ⟨?_, ?_, ?_⟩
  · intro datum
    refine ⟨depth_eq_height datum, visits_deepest _ 0, ?_⟩
    intro state run
    rw [depth_eq_height]
    exact ⟨acc_visits state, eq_height_of_visits run⟩
  · intro reader after datum done
    obtain ⟨taken, consumed, form⟩ := Reader.next_eq_some_iff.mp done
    refine ⟨⟨taken, consumed, ?_⟩, Reader.next_eq_some_iff_depth_le done, ?_⟩
    · rw [depth_eq_height]
      exact fun stack => isGreatest_openCounts form
    · rw [depth_eq_height]
      exact Nat.le_trans (form_height_le form) (Nat.sub_le _ _)
  · intro source data read datum member
    obtain ⟨after, done⟩ := Reader.readAll_eq_ok.mp read
    obtain ⟨used, rest, split, -, forms⟩ := Reader.readForms_sound done (Nat.le_refl _)
    obtain ⟨before, taken, behind, rfl, form⟩ := exists_form_of_mem forms member
    refine ⟨before, taken, behind ++ rest, by simp [split], ?_, ?_, ?_⟩
    · exact Reader.readForm_top.form form
    · rw [depth_eq_height, ← Nat.zero_add datum.height]
      exact isGreatest_openCounts form rfl
    · rw [depth_eq_height]
      exact form_height_le form

end Datum

end LispCompiler
