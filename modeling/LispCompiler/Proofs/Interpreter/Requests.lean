import LispCompiler.Interpreter.Message
import LispCompiler.Proofs.Text.Json
import LispCompiler.Proofs.Text.Lines

namespace LispCompiler

namespace Quoted

theorem quote_visible (text : String) : ∀ c ∈ (quote text).toList, ' ' ≤ c := by
  have inside := decode_visible text.toList (decode_encode text.toList)
  rw [toList_quote, List.forall_mem_cons, List.forall_mem_append, List.forall_mem_singleton]
  exact ⟨by decide, inside, by decide⟩

end Quoted

namespace Json

theorem isString_quote (text : String) : IsString (Quoted.quote text).toList text := by
  rw [Quoted.toList_quote]
  exact .quoted (Quoted.denotes_encode text.toList)

theorem isElement_quote {before : List Char} (blanks : Blanks before) (text : String) :
    IsElement (before ++ (Quoted.quote text).toList) text := by
  have element := IsElement.intro blanks (isString_quote text) (List.forall_mem_nil _)
  rwa [List.append_nil] at element

end Json

namespace Interpreter

theorem toList_requestLine (command name code : String) :
    (requestLine command name code).toList =
      '[' :: ((Quoted.quote command).toList ++
        ',' :: ([' '] ++ (Quoted.quote name).toList ++ ',' :: ([' '] ++ (Quoted.quote code).toList)) ++
        [']']) := by
  simp [requestLine]

theorem isArray_requestLine (command name code : String) :
    Json.IsArray (requestLine command name code).toList [command, name, code] := by
  have none : Json.Blanks [] := List.forall_mem_nil _
  have space : Json.Blanks [' '] := List.forall_mem_singleton.mpr rfl
  have first := Json.isElement_quote none command
  have elements := Json.AreElements.cons first (.cons (Json.isElement_quote space name)
    (.single (Json.isElement_quote space code)))
  have isArray := Json.IsArray.filled none elements none
  rw [List.nil_append, List.nil_append] at isArray
  rwa [toList_requestLine]

theorem requestLine_visible (command name code : String) :
    ∀ c ∈ (requestLine command name code).toList, ' ' ≤ c := by
  have visible := Quoted.quote_visible
  simp only [toList_requestLine, List.forall_mem_cons, List.forall_mem_append, List.not_mem_nil,
    false_implies, implies_true, and_true]
  exact ⟨by decide, ⟨visible command, by decide, ⟨by decide, visible name⟩, by decide, by decide,
    visible code⟩, by decide⟩

/-- A request has no control characters and is an array of exactly the three strings that it was made
of. So it tells these apart, and its line ends where it ends, whatever follows. -/
theorem requestLine_denotes (command name code : String) :
    (∀ c ∈ (requestLine command name code).toList, ' ' ≤ c) ∧
      (∀ texts, Json.IsArray (requestLine command name code).toList texts ↔
        texts = [command, name, code]) ∧
      (∀ otherCommand otherName otherCode,
        requestLine command name code = requestLine otherCommand otherName otherCode ↔
          command = otherCommand ∧ name = otherName ∧ code = otherCode) ∧
      ∀ rest, Bytes.splitLine (Bytes.ofText (requestLine command name code) ++ Bytes.newline :: rest) =
        (Bytes.ofText (requestLine command name code) ++ [Bytes.newline], rest) := by
  have visible := requestLine_visible command name code
  have isArray := isArray_requestLine command name code
  refine ⟨visible, ?_, ?_, ?_⟩
  · intro texts
    constructor
    · intro isOther
      exact isOther.unique isArray
    · intro same
      rwa [same]
  · intro otherCommand otherName otherCode
    constructor
    · intro same
      rw [same] at isArray
      simpa using isArray.unique (isArray_requestLine otherCommand otherName otherCode)
    · intro same
      rw [same.1, same.2.1, same.2.2]
  · intro rest
    have oneLine : '\n' ∉ (requestLine command name code).toList := by
      intro member
      exact absurd (visible '\n' member) (by decide)
    exact Bytes.splitLine_line (Bytes.newline_notMem_ofText oneLine)

end Interpreter

end LispCompiler
