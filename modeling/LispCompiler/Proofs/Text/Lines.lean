import LispCompiler.Text.Bytes

namespace LispCompiler.Bytes

def lines (bytes : List UInt8) : List (List UInt8) :=
  match bytes with
  | [] => []
  | byte :: rest => (splitLine (byte :: rest)).1 :: lines (splitLine (byte :: rest)).2
termination_by bytes.length
decreasing_by exact splitLine_length (byte :: rest) (List.cons_ne_nil byte rest)

variable {line rest : List UInt8}

theorem splitLine_line (unbroken : newline ∉ line) :
    splitLine (line ++ newline :: rest) = (line ++ [newline], rest) := by
  have inside : ∀ byte ∈ line, (byte != newline) = true := by
    intro byte member
    exact bne_iff_ne.mpr fun same => unbroken (same ▸ member)
  have behind : (line ++ newline :: rest).dropWhile (· != newline) = newline :: rest := by
    rw [List.dropWhile_append_of_pos inside, List.dropWhile_cons_of_neg (by simp)]
  have before : (line ++ newline :: rest).takeWhile (· != newline) = line := by
    rw [List.takeWhile_append_of_pos inside, List.takeWhile_cons_of_neg (by simp), List.append_nil]
  simp only [splitLine, behind, before]

theorem lines_line (unbroken : newline ∉ line) :
    lines (line ++ newline :: rest) = (line ++ [newline]) :: lines rest := by
  have split := @splitLine_line line rest unbroken
  cases whole : line ++ newline :: rest with
  | nil => simp at whole
  | cons byte behind => rw [lines, ← whole, split]

theorem lines_flatMap {ended : List (List UInt8)} (unbroken : ∀ line ∈ ended, newline ∉ line) :
    lines (ended.flatMap (· ++ [newline])) = ended.map (· ++ [newline]) := by
  induction ended with
  | nil => rw [List.flatMap_nil, lines, List.map_nil]
  | cons line ended ih =>
    rcases List.forall_mem_cons.mp unbroken with ⟨first, others⟩
    rw [List.flatMap_cons, List.append_assoc, List.singleton_append, lines_line first, ih others,
      List.map_cons]

theorem ofText_eq (text : String) : ofText text = text.toList.flatMap String.utf8EncodeChar := by
  have encoded : text.toByteArray = (text.toList.flatMap String.utf8EncodeChar).toByteArray :=
    String.utf8Encode_toList.symm
  rw [ofText, String.toUTF8_eq_toByteArray, encoded]
  simp

theorem ofText_append (first second : String) :
    ofText (first ++ second) = ofText first ++ ofText second := by
  simp [ofText_eq]

theorem ofText_line (text : String) : ofText (text ++ "\n") = ofText text ++ [newline] := by
  rw [ofText_append]
  rfl

theorem toText_ofText (text : String) : toText (ofText text) = .ok text := by
  have decoded : String.fromUTF8? text.toUTF8 = some text := dif_pos text.isValidUTF8
  rw [toText, ofText]
  exact decoded ▸ rfl

theorem toText_eq_ok_iff {bytes : List UInt8} {text : String} :
    toText bytes = .ok text ↔ bytes = ofText text := by
  constructor
  · intro decoded
    unfold toText String.fromUTF8? at decoded
    split at decoded
    · next found valid =>
      cases decoded
      rw [Option.dite_none_right_eq_some] at valid
      rcases valid with ⟨isValid, same⟩
      cases same
      rfl
    · cases decoded
  · rintro rfl
    exact toText_ofText text

theorem toText_invalid {bytes : List UInt8} (invalid : ∀ text, bytes ≠ ofText text) :
    toText bytes = .error .invalidText := by
  cases decoded : toText bytes with
  | ok text => exact absurd (toText_eq_ok_iff.mp decoded) (invalid text)
  | error error =>
    unfold toText at decoded
    split at decoded
    · cases decoded
    · exact decoded.symm

theorem ofText_injective {text other : String} (same : ofText text = ofText other) : text = other :=
  Except.ok.inj ((toText_ofText text).symm.trans (same ▸ toText_ofText other))

theorem newline_eq_ofNat {value : Nat} (small : value < 256) (same : newline = UInt8.ofNat value) :
    value = 10 := by
  have number : (10 : Nat) = value % 256 := congrArg UInt8.toNat same
  omega

/-- Only a line break has the byte of a line break in its encoding. -/
theorem newline_mem_encodeChar {c : Char} (member : newline ∈ String.utf8EncodeChar c) : c = '\n' := by
  have small : c.val.toNat ≤ 127 := by
    apply Decidable.byContradiction
    intro large
    -- all bytes of a longer encoding are at least 128
    have bytes : ∃ value, value < 256 ∧ 128 ≤ value ∧ newline = UInt8.ofNat value := by
      simp only [String.utf8EncodeChar, if_neg large] at member
      split at member
      · simp only [List.mem_cons, List.not_mem_nil, or_false] at member
        rcases member with same | same <;> exact ⟨_, by omega, by omega, same⟩
      · split at member
        · simp only [List.mem_cons, List.not_mem_nil, or_false] at member
          rcases member with same | same | same <;> exact ⟨_, by omega, by omega, same⟩
        · simp only [List.mem_cons, List.not_mem_nil, or_false] at member
          rcases member with same | same | same | same <;> exact ⟨_, by omega, by omega, same⟩
    rcases bytes with ⟨value, most, least, same⟩
    have ten := newline_eq_ofNat most same
    omega
  simp only [String.utf8EncodeChar, if_pos small, List.mem_singleton] at member
  have ten := newline_eq_ofNat (by omega) member
  exact Char.ext (UInt32.toNat_inj.mp ten)

theorem newline_notMem_ofText {text : String} (oneLine : '\n' ∉ text.toList) :
    newline ∉ ofText text := by
  intro member
  rw [ofText_eq, List.mem_flatMap] at member
  rcases member with ⟨c, present, encoded⟩
  rw [newline_mem_encodeChar encoded] at present
  exact oneLine present

end LispCompiler.Bytes
