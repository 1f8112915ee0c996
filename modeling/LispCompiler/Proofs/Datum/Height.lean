import LispCompiler.Proofs.Datum.Grammar

namespace LispCompiler.Datum

mutual

def height : Datum → Nat
  | list items => 1 + heightList items
  | _ => 0

def heightList : List Datum → Nat
  | [] => 0
  | item :: items => max item.height (heightList items)

end

/-- A measure of lists that grows with each item bounds the measure of every item. -/
theorem measure_le_of_mem {measure : Datum → Nat} {total : List Datum → Nat}
    (first : ∀ item items, measure item ≤ total (item :: items))
    (others : ∀ item items, total items ≤ total (item :: items)) {item : Datum} {items : List Datum}
    (member : item ∈ items) : measure item ≤ total items := by
  induction items with
  | nil => cases member
  | cons other items ih =>
    rcases List.mem_cons.mp member with rfl | member
    · exact first item items
    · exact Nat.le_trans (ih member) (others other items)

theorem height_le_of_mem {item : Datum} {items : List Datum} (member : item ∈ items) :
    item.height ≤ heightList items := by
  apply measure_le_of_mem _ _ member
  all_goals
    intro item items
    rw [heightList]
    omega

def reach : Datum → Nat → Nat
  | list items, level => level + (list items).height
  | _, _ => 0

def Pending.reach : Pending → Nat
  | [] => 0
  | (datum, level) :: pending => max (datum.reach level) (Pending.reach pending)

theorem Pending.reach_append (left right : Pending) :
    Pending.reach (left ++ right) = max (Pending.reach left) (Pending.reach right) := by
  induction left with
  | nil => simp [Pending.reach]
  | cons entry left ih =>
    simp only [List.cons_append, Pending.reach, ih]
    omega

theorem Pending.reach_items (items : List Datum) (level : Nat) :
    max level (Pending.reach (items.map (·, level))) = level + heightList items := by
  induction items with
  | nil => simp [Pending.reach, heightList]
  | cons item items ih =>
    simp only [List.map_cons, Pending.reach, heightList]
    cases item with
    | list inner =>
      simp only [Datum.reach]
      omega
    | _ =>
      simp only [Datum.reach, height]
      omega

theorem deepest_eq (pending : Pending) (best : Nat) :
    deepest pending best = max best (Pending.reach pending) := by
  fun_induction deepest pending best with
  | case1 best => simp [Pending.reach]
  | case2 best items level rest ih =>
    have inner := Pending.reach_items items (level + 1)
    simp only [List.map_subtype, List.unattach_attach, Pending.reach_append] at ih
    rw [ih]
    simp only [Pending.reach, Datum.reach, height]
    omega
  | case3 best atom level rest noList _ ih =>
    rw [ih]
    cases atom with
    | list items => exact absurd rfl (noList items)
    | _ => simp [Pending.reach, Datum.reach]

theorem depth_eq_height (datum : Datum) : datum.depth = datum.height := by
  rw [depth, deepest_eq]
  cases datum <;> simp [Pending.reach, Datum.reach, height]

end LispCompiler.Datum

namespace LispCompiler.Grammar

theorem atom_height {token : Token} {datum : Datum} (atom : Atom token datum) : datum.height = 0 := by
  cases atom with
  | string => rfl
  | literal _ known =>
    unfold Datum.literal? at known
    split at known <;> cases known <;> rfl
  | number _ _ _ inRange =>
    unfold Numeral.value? at inRange
    split at inRange
    all_goals
      rcases Option.map_eq_some_iff.mp inRange with ⟨value, -, rfl⟩
      rfl
  | symbol => rfl

mutual

theorem form_height {level : Nat} (room : level ≤ maxNesting) : ∀ {tokens : List Token} {datum : Datum},
    Form level tokens datum → level + datum.height ≤ maxNesting
  | _, _, .atom single => by
    have flat : Datum.height _ = 0 := atom_height single
    omega
  | _, _, .list _ _ shallow between => by
    have inside := forms_height shallow between
    rw [Datum.height]
    omega
  | _, _, .marked _ shallow _ behind => by
    have inside := form_height shallow behind
    simp only [Datum.marked, Datum.height, Datum.heightList]
    omega

theorem forms_height {level : Nat} (room : level ≤ maxNesting) : ∀ {tokens : List Token} {data : List Datum},
    Forms level tokens data → level + Datum.heightList data ≤ maxNesting
  | _, _, .nil => by
    rw [Datum.heightList]
    omega
  | _, _, .comment _ others => forms_height room others
  | _, _, .form one others => by
    have first := form_height room one
    have behind := forms_height room others
    rw [Datum.heightList]
    omega

end

end LispCompiler.Grammar
