import Mathlib.Data.List.DropRight
import LispCompiler.Text.Whitespace

namespace LispCompiler

open Whitespace (isWhitespace)

theorem toNat_of_isAlpha {c : Char} (letter : c.isAlpha) :
    (65 ≤ c.toNat ∧ c.toNat ≤ 90) ∨ (97 ≤ c.toNat ∧ c.toNat ≤ 122) := by
  rcases Bool.or_eq_true_iff.mp letter with upper | lower
  · exact .inl (of_decide_eq_true upper)
  · rcases Bool.and_eq_true_iff.mp lower with ⟨least, most⟩
    exact .inr ⟨of_decide_eq_true least, of_decide_eq_true most⟩

theorem toNat_of_isDigit {c : Char} (digit : c.isDigit) : 48 ≤ c.toNat ∧ c.toNat ≤ 57 := by
  rcases Bool.and_eq_true_iff.mp digit with ⟨least, most⟩
  exact ⟨of_decide_eq_true least, of_decide_eq_true most⟩

theorem visible_of_range {c : Char} (least : 33 ≤ c.toNat) (most : c.toNat ≤ 126) :
    isWhitespace c = false := by
  simp [isWhitespace, Whitespace.ranges]
  omega

theorem visible_of_isAlphanum {c : Char} (alphanumeric : c.isAlphanum) : isWhitespace c = false := by
  rcases Bool.or_eq_true_iff.mp alphanumeric with letter | digit
  · have range := toNat_of_isAlpha letter
    exact visible_of_range (by omega) (by omega)
  · have range := toNat_of_isDigit digit
    exact visible_of_range (by omega) (by omega)

namespace Whitespace

variable {text blanks : List Char}

theorem trimEnd_append (space : ∀ c ∈ blanks, isWhitespace c) : trimEnd (text ++ blanks) = trimEnd text := by
  induction blanks using List.reverseRecOn with
  | nil => rw [List.append_nil]
  | append_singleton front last ih =>
    rw [List.forall_mem_append, List.forall_mem_singleton] at space
    rw [← List.append_assoc, ← ih space.1]
    exact List.rdropWhile_concat_pos _ _ _ space.2

theorem trimEnd_eq_self (visible : ∀ c ∈ text.getLast?, isWhitespace c = false) : trimEnd text = text := by
  refine List.rdropWhile_eq_self_iff.mpr fun nonempty => ?_
  rw [visible _ (List.getLast?_eq_some_getLast nonempty)]
  exact Bool.false_ne_true

theorem exists_blanks (text : List Char) : ∃ blanks, text = trimEnd text ++ blanks ∧
    (∀ c ∈ blanks, isWhitespace c) ∧ ∀ c ∈ (trimEnd text).getLast?, isWhitespace c = false := by
  refine ⟨(text.reverse.takeWhile isWhitespace).reverse, ?_, ?_, ?_⟩
  · rw [trimEnd, ← List.reverse_append, List.takeWhile_append_dropWhile, List.reverse_reverse]
  · intro c member
    exact List.mem_takeWhile_imp (List.mem_reverse.mp member)
  · intro c last
    have stops := List.head?_dropWhile_not isWhitespace text.reverse
    rw [trimEnd, List.getLast?_reverse] at last
    rwa [last] at stops

end Whitespace

end LispCompiler
