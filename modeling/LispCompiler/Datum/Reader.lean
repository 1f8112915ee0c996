import LispCompiler.Datum.Word
import LispCompiler.ReadError
import LispCompiler.Token.Lexer

/-!
Reading forms from tokens. A form is a word, a string, a list in parentheses or brackets, or a quote
mark with the form it applies to. Comments may stand wherever a form may. A failure keeps the
tokens that are still unread, so that reading can go on behind it.
-/

namespace LispCompiler

/-- The tokens that are still unread and the number of forms that are open around them. -/
structure Reader where
  rest : List Token
  depth : Nat
  deriving DecidableEq, Repr

abbrev Read :=
  EStateM ReadError Reader

/-- The text of a string token; where it holds no backslash, nothing has to be unescaped. -/
def Token.stringText (token : Token) : Except Quoted.Flaw String :=
  let decoded :=
    if token.kind = .plainString then Quoted.decodePlain token.inner else Quoted.decode token.inner
  decoded.map String.ofList

def Token.fail (token : Token) (cause : ReadError.Cause) : Read α :=
  throw ⟨token.span, cause⟩

namespace Reader

def ofSource (source : String) : Reader :=
  ⟨Token.lex source, 0⟩

def current? (reader : Reader) : Option Token :=
  match reader.rest with
  | [] => none
  | token :: _ => if token.isEof then none else some token

def atEnd (reader : Reader) : Bool :=
  reader.current?.isNone

def skip (reader : Reader) : Reader :=
  { reader with rest := reader.rest.drop 1 }

def enter (reader : Reader) : Reader :=
  { reader with depth := reader.depth + 1 }

def leave (reader : Reader) : Reader :=
  { reader with depth := reader.depth - 1 }

def advance : Read (Option Token) := do
  match (← get).current? with
  | none => return none
  | some token =>
    modify skip
    return some token

def nested (token : Token) (body : Read α) : Read α := fun reader =>
  if maxNesting ≤ reader.depth then
    token.fail .nestingTooDeep reader
  else
    match body reader.enter with
    | .ok value reader => .ok value reader.leave
    | .error error reader => .error error reader.leave

/-- The items of a list up to the closer of its kind. Each step but the last takes a token, so the
number of unread tokens is enough `fuel`. -/
def readItems (read : Read (Option Datum)) (token : Token) (delimiter : Delimiter) :
    (fuel : Nat) → Read (List Datum)
  | 0 => token.fail .unbalanced
  | fuel + 1 => do
    match (← get).current? with
    | none => token.fail .unbalanced
    | some next =>
      match next.kind with
      | .closer actual =>
        if actual = delimiter then
          modify skip
          return []
        else
          next.fail (.mismatched (.closer delimiter) (.closer actual))
      | _ =>
        let item ← read
        let items ← readItems read token delimiter fuel
        return item.toList ++ items

def readOperand (read : Read (Option Datum)) (token : Token) : (fuel : Nat) → Read Datum
  | 0 => token.fail .unexpectedEof
  | fuel + 1 => do
    match (← get).current? with
    | none => token.fail .unexpectedEof
    | some _ =>
      match ← read with
      | some operand => return operand
      | none => readOperand read token fuel

def withFuel (body : Nat → Read α) : Read α := do
  body (← get).rest.length

/-- The next form. A comment is taken and yields none, and so does the end of the input. `levels`
bounds the nesting of the form from above. -/
def readForm (levels : Nat) : Read (Option Datum) := do
  match ← advance with
  | none => return none
  | some token =>
    match token.kind with
    | .eof | .comment => return none
    | .opener delimiter =>
      nested token do
        match levels with
        | 0 => token.fail .nestingTooDeep
        | levels + 1 =>
          let items ← withFuel (readItems (readForm levels) token delimiter)
          return some (.list items)
    | .closer _ => token.fail .unexpectedCloser
    | .marker marker =>
      nested token do
        match levels with
        | 0 => token.fail .nestingTooDeep
        | levels + 1 =>
          let operand ← withFuel (readOperand (readForm levels) token)
          return some (.marked marker.symbol operand)
    | .plainString | .escapedString =>
      match token.stringText with
      | .ok text => return some (.string text)
      | .error flaw => token.fail (.invalidString flaw)
    | .word =>
      match Datum.ofWord? token.text with
      | some atom => return some atom
      | none => token.fail .numberOutOfRange
    | .unclosedString => token.fail .unclosedString

def next (reader : Reader) : EStateM.Result ReadError Reader (Option Datum) :=
  readForm maxNesting reader

def readForms : (fuel : Nat) → Read (List Datum)
  | 0 => return []
  | fuel + 1 => do
    if (← get).atEnd then
      return []
    else
      let form ← readForm maxNesting
      let forms ← readForms fuel
      return form.toList ++ forms

section AtEnd

variable {reader : Reader} {token : Token}

theorem get_bind {next : Reader → Read α} : (get >>= next) reader = next reader reader :=
  rfl

theorem readItems_atEnd {read : Read (Option Datum)} {delimiter : Delimiter} {fuel : Nat}
    (ended : reader.atEnd) :
    readItems read token delimiter fuel reader = .error ⟨token.span, .unbalanced⟩ reader := by
  cases fuel with
  | zero => rfl
  | succ fuel =>
    rw [readItems, get_bind, Option.isNone_iff_eq_none.mp ended]
    rfl

theorem readOperand_atEnd {read : Read (Option Datum)} {fuel : Nat} (ended : reader.atEnd) :
    readOperand read token fuel reader = .error ⟨token.span, .unexpectedEof⟩ reader := by
  cases fuel with
  | zero => rfl
  | succ fuel =>
    rw [readOperand, get_bind, Option.isNone_iff_eq_none.mp ended]
    rfl

theorem readForm_atEnd {levels : Nat} (ended : reader.atEnd) :
    readForm levels reader = .ok none reader := by
  have stays : advance reader = .ok none reader := by
    rw [advance, get_bind, Option.isNone_iff_eq_none.mp ended]
    rfl
  rw [readForm.eq_def]
  simp only [bind, EStateM.bind, stays]
  rfl

end AtEnd

end Reader

namespace Datum

/-- The first form of a source. What stands behind it is not read. -/
def readFirst (source : String) : Except ReadError (Option Datum) :=
  match (Reader.ofSource source).next with
  | .ok form _ => .ok form
  | .error error _ => .error error

def readAll (source : String) : Except ReadError (List Datum) :=
  match Reader.withFuel Reader.readForms (Reader.ofSource source) with
  | .ok forms _ => .ok forms
  | .error error _ => .error error

end Datum

end LispCompiler
