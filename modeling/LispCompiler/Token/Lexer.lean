import LispCompiler.Token

/-!
Splitting source text into tokens. Each token is the longest lexeme of its class, blanks separate
tokens and yield none, and the list always ends with an empty token at the end of the source.
-/

namespace LispCompiler.Token

def isBlank (c : Char) : Bool :=
  c == ' ' || c == '\t' || c == '\n' || c == '\r' || c == '\x0b' || c == '\x0c'

def isStructural (c : Char) : Bool :=
  c == '(' || c == ')' || c == '[' || c == ']' || c == '"' || c == '\'' || c == '\x60' || c == ','

def isWordChar (c : Char) : Bool :=
  !isBlank c && !isStructural c

/-- Splits what follows an opening quote at the first quote that no backslash escapes. -/
def splitQuoted : List Char → Option (List Char × List Char)
  | [] => none
  | '"' :: rest => some ([], rest)
  | '\\' :: c :: rest => (splitQuoted rest).map fun (body, rest) => ('\\' :: c :: body, rest)
  | c :: rest => (splitQuoted rest).map fun (body, rest) => (c :: body, rest)

theorem splitQuoted_append {text body rest : List Char} (split : splitQuoted text = some (body, rest)) :
    text = body ++ '"' :: rest := by
  fun_induction splitQuoted text generalizing body rest with
  | case1 => simp at split
  | case2 => simp_all
  | case3 c tail ih =>
    obtain ⟨⟨inner, after⟩, found, same⟩ := Option.map_eq_some_iff.mp split
    simp only [Prod.mk.injEq] at same
    obtain ⟨rfl, rfl⟩ := same
    simp [ih found]
  | case4 c tail _ _ ih =>
    obtain ⟨⟨inner, after⟩, found, same⟩ := Option.map_eq_some_iff.mp split
    simp only [Prod.mk.injEq] at same
    obtain ⟨rfl, rfl⟩ := same
    simp [ih found]

structure Piece where
  kind : Kind
  text : List Char
  rest : List Char

/-- The lexeme that starts with `first`, which is no blank. -/
def scan (first : Char) (rest : List Char) : Piece :=
  match first with
  | '(' => ⟨.opener .paren, ['('], rest⟩
  | ')' => ⟨.closer .paren, [')'], rest⟩
  | '[' => ⟨.opener .bracket, ['['], rest⟩
  | ']' => ⟨.closer .bracket, [']'], rest⟩
  | '\'' => ⟨.marker .quote, ['\''], rest⟩
  | '\x60' => ⟨.marker .quasiquote, ['\x60'], rest⟩
  | ',' =>
    match rest with
    | '@' :: rest => ⟨.marker .spliceUnquote, [',', '@'], rest⟩
    | rest => ⟨.marker .unquote, [','], rest⟩
  | ';' => ⟨.comment, ';' :: rest.takeWhile (· != '\n'), rest.dropWhile (· != '\n')⟩
  | '"' =>
    match splitQuoted rest with
    | some (body, rest) =>
      ⟨if body.contains '\\' then .escapedString else .plainString, '"' :: (body ++ ['"']), rest⟩
    | none => ⟨.unclosedString, '"' :: rest, []⟩
  | first => ⟨.word, first :: rest.takeWhile isWordChar, rest.dropWhile isWordChar⟩

theorem scan_append (first : Char) (rest : List Char) :
    (scan first rest).text ++ (scan first rest).rest = first :: rest := by
  unfold scan
  split <;> try simp
  · split <;> simp
  · split
    · next split => simp [splitQuoted_append split]
    · simp

theorem scan_text_ne_nil (first : Char) (rest : List Char) : (scan first rest).text ≠ [] := by
  unfold scan
  split <;> try simp
  all_goals split <;> simp

theorem scan_rest_length (first : Char) (rest : List Char) :
    (scan first rest).rest.length < (first :: rest).length := by
  have whole := congrArg List.length (scan_append first rest)
  have some := List.length_pos_iff.mpr (scan_text_ne_nil first rest)
  rw [List.length_append] at whole
  omega

/-- The tokens of `source`, whose first character stands at byte `position`. -/
def lexFrom (position : Nat) (source : List Char) : List Token :=
  match source with
  | [] => [⟨.eof, position, ""⟩]
  | first :: rest =>
    if isBlank first then
      lexFrom (position + first.utf8Size) rest
    else
      let piece := scan first rest
      ⟨piece.kind, position, String.ofList piece.text⟩ ::
        lexFrom (position + byteLength piece.text) piece.rest
termination_by source.length
decreasing_by
  · simp
  · exact scan_rest_length first rest

def lex (source : String) : List Token :=
  lexFrom 0 source.toList

end LispCompiler.Token
