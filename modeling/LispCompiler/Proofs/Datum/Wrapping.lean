import Mathlib
import LispCompiler.Proofs.Datum.Concatenation

namespace LispCompiler

open Token

namespace Datum

theorem heightList_le_iff {items : List Datum} {bound : Nat} :
    heightList items ≤ bound ↔ ∀ item ∈ items, item.height ≤ bound := by
  induction items with
  | nil => simp [heightList]
  | cons item items ih => simp [heightList, ih]

end Datum

namespace Grammar

variable {level : Nat} {first last : Token} {inner tokens : List Token} {items : List Datum}

theorem comments_of_forms {data : List Datum} (forms : Forms level tokens data) (empty : data = []) :
    Comments tokens := by
  induction forms using forms_induction with
  | nil => exact List.forall_mem_nil _
  | comment skipped _ ih => exact List.forall_mem_cons.mpr ⟨skipped, ih empty⟩
  | form => cases empty

/-- Between an opener and the closer that ends the tokens there are exactly the forms of the list. -/
theorem forms_between {opened closed : Delimiter} (opens : first.kind = .opener opened)
    (closes : last.kind = .closer closed)
    (forms : Forms level (first :: (inner ++ [last])) [.list items]) : Forms (level + 1) inner items := by
  generalize whole : first :: (inner ++ [last]) = tokens at forms
  cases forms with
  | comment skipped others =>
    cases whole
    simp [opens] at skipped
  | @form _ front behind _ _ one others =>
    have comments : Comments behind := comments_of_forms others rfl
    have high : (Datum.list items).height ≠ 0 := by simp [Datum.height]
    cases one with
    | atom single => simp [atom_height single] at high
    | marked marks =>
      rw [← List.head_eq_of_cons_eq whole, opens] at marks
      cases marks
    | @list _ _ _ _ between _ _ _ _ forms =>
      rw [List.cons_append, List.cons.injEq, List.append_assoc] at whole
      -- a comment behind the closer would be the last token
      rcases List.eq_nil_or_concat behind with rfl | ⟨others, comment, rfl⟩
      · rcases List.append_inj' whole.2 rfl with ⟨rfl, -⟩
        exact forms
      · have skipped : comment.kind = .comment := comments comment (by simp)
        rw [List.concat_eq_append, ← List.append_assoc, ← List.append_assoc] at whole
        rcases List.append_inj' whole.2 rfl with ⟨-, same⟩
        rw [← List.head_eq_of_cons_eq same, closes] at skipped
        cases skipped

theorem forms_wrapped_iff {opened : Delimiter} (opens : first.kind = .opener opened)
    (closes : last.kind = .closer opened) :
    Forms 0 (first :: (inner ++ [last])) [.list items] ↔ Forms 1 inner items := by
  constructor
  · exact forms_between opens closes
  · intro between
    have outer : Form 0 (first :: (inner ++ [last])) (.list items) :=
      .list opens closes (by decide) between
    have alone := Forms.form outer .nil
    rwa [List.append_nil] at alone

/-- Forms stand one level further in if and only if none of them needs all the levels there are. -/
theorem forms_inside_iff {bytes : Nat} :
    Forms 1 (tokens.map (moved bytes)) items ↔ Forms 0 tokens items ∧ ∀ item ∈ items, item.depth ≤ 255 := by
  have shallow : (∀ item ∈ items, item.depth ≤ 255) ↔ 1 + Datum.heightList items ≤ maxNesting := by
    simp only [Datum.depth_eq_height, ← Datum.heightList_le_iff, maxNesting]
    omega
  rw [shallow]
  constructor
  · intro forms
    have room := forms_height (by decide) forms
    have back := @forms_placed (·.start - bytes) _ 0 _ _ forms (by omega)
    have same : placed (·.start - bytes) ∘ moved bytes = id := by
      funext token
      simp [placed, moved]
    rw [List.map_map, same, List.map_id] at back
    exact ⟨back, room⟩
  · intro inside
    exact @forms_placed (·.start + bytes) _ _ _ _ inside.1 inside.2

end Grammar

open OpenForm

namespace Datum

theorem readAll_eq_ok_iff_forms {source : String} {data : List Datum} {body : List Token} {last : Token}
    (lexed : lex source = body ++ [last]) (ends : last.kind = .eof) :
    readAll source = .ok data ↔ Grammar.Forms 0 body data := by
  constructor
  · intro read
    rcases Reader.lex_of_readAll read with ⟨others, _, same, _, forms⟩
    rcases List.append_inj' (lexed.symm.trans same) rfl with ⟨rfl, -⟩
    exact forms
  · exact Reader.readAll_complete lexed ends

theorem readAll_ne_ok_of_broken {source : String} {body behind : List Token} {broken : Token}
    (lexed : lex source = body ++ broken :: behind) (unreadable : Broken broken) (data : List Datum) :
    ¬readAll source = .ok data := by
  intro read
  rcases foldlM_broken body behind [] unreadable with ⟨error, refused⟩
  have accepted : run [] (lex source) = .ok () := exists_readAll_iff.mp ⟨data, read⟩
  rw [lexed, run_error refused] at accepted
  cases accepted

/-- A source is read as the forms of an outer list that is put around it if and only if it is read as
these forms alone, and each of them is less deep than the deepest form that can be read. -/
theorem readAll_wrapped_iff (source : String) (forms : List Datum) :
    readAll ("(" ++ source ++ "\n)") = .ok [.list forms] ↔
      readAll source = .ok forms ∧ ∀ form ∈ forms, form.depth ≤ 255 := by
  have wrapped : lex ("(" ++ source ++ "\n)") =
      ⟨.opener .paren, 0, "("⟩ :: lexFrom 1 (source.toList ++ ['\n', ')']) := by
    simp [lex, lexFrom_openParen]
  have inside : lexFrom 1 source.toList = (lex source).map (Token.moved 1) := lexFrom_moved 1 0 source.toList
  cases lexFrom_joined 1 source.toList [')'] with
  | closed _ alone whole =>
    rw [inside] at alone
    rcases List.map_eq_append_iff.mp alone with ⟨body, ending, lexed, rfl, last⟩
    rcases List.map_eq_singleton_iff.mp last with ⟨eof, rfl, same⟩
    have ends : eof.kind = .eof := congrArg Token.kind same
    rw [whole, lexFrom_closeParen, lexFrom_nil, List.append_cons, ← List.cons_append] at wrapped
    rw [readAll_eq_ok_iff_forms wrapped rfl, readAll_eq_ok_iff_forms lexed ends,
      Grammar.forms_wrapped_iff rfl rfl, Grammar.forms_inside_iff]
  | unclosed kind alone whole unreadable =>
    rw [inside] at alone
    rw [whole, ← List.cons_append] at wrapped
    rcases List.map_eq_append_iff.mp alone with ⟨body, ending, lexed, rfl, last⟩
    rcases List.map_eq_cons_iff.mp last with ⟨string, behind, rfl, rfl, -⟩
    refine iff_of_false (readAll_ne_ok_of_broken wrapped unreadable _) ?_
    intro read
    exact readAll_ne_ok_of_broken lexed (.unclosed kind) _ read.1

end Datum

end LispCompiler
