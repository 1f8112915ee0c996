import LispCompiler.Proofs.Datum.Reading
import LispCompiler.Proofs.Outcomes

/-!
Reading on behind errors. The rules of a call say what it does, without a bound on its loops or its
nesting. Main statement: every call ends, and unless the input ends there it takes at least one token
and leaves as many forms open as there were before. So errors never keep later forms from being read.
-/

namespace LispCompiler

namespace Reader

section Rules

inductive Alone (token : Token) : Except ReadError (Option Datum) → Prop
  | comment (kind : token.kind = .comment) : Alone token (.ok none)
  | atom {datum : Datum} (single : Grammar.Atom token datum) : Alone token (.ok (some datum))
  | closer {delimiter : Delimiter} (kind : token.kind = .closer delimiter) :
      Alone token (.error ⟨token.span, .unexpectedCloser⟩)
  | invalidString {flaw : Quoted.Flaw}
      (kind : token.kind = .plainString ∨ token.kind = .escapedString)
      (flawed : token.stringText = .error flaw) : Alone token (.error ⟨token.span, .invalidString flaw⟩)
  | unclosedString (kind : token.kind = .unclosedString) :
      Alone token (.error ⟨token.span, .unclosedString⟩)
  | outOfRange (kind : token.kind = .word) (beyond : Datum.ofWord? token.text = none) :
      Alone token (.error ⟨token.span, .numberOutOfRange⟩)

def Opens (token : Token) : Prop :=
  (∃ delimiter, token.kind = .opener delimiter) ∨ ∃ marker, token.kind = .marker marker

def Begins (token : Token) : Prop :=
  token.kind ≠ .eof ∧ ∀ delimiter, token.kind ≠ .closer delimiter

mutual

/-- A call for the next form: the reader before it, what it returns, and the reader behind it. -/
inductive FormCall : Reader → Except ReadError (Option Datum) → Reader → Prop
  | atEnd {reader : Reader} (ended : reader.atEnd) : FormCall reader (.ok none) reader
  | alone {token : Token} {rest : List Token} {depth : Nat} {result : Except ReadError (Option Datum)}
      (single : Alone token result) : FormCall ⟨token :: rest, depth⟩ result ⟨rest, depth⟩
  | tooDeep {token : Token} {rest : List Token} {depth : Nat} (opens : Opens token)
      (full : maxNesting ≤ depth) :
      FormCall ⟨token :: rest, depth⟩ (.error ⟨token.span, .nestingTooDeep⟩) ⟨rest, depth⟩
  | list {token : Token} {rest : List Token} {depth : Nat} {delimiter : Delimiter}
      {result : Except ReadError (List Datum)} {inside : Reader} (kind : token.kind = .opener delimiter)
      (room : depth < maxNesting) (items : ItemsCall token delimiter ⟨rest, depth + 1⟩ result inside) :
      FormCall ⟨token :: rest, depth⟩ (result.map (some <| .list ·)) inside.leave
  | marked {token : Token} {rest : List Token} {depth : Nat} {marker : Marker}
      {result : Except ReadError Datum} {inside : Reader} (kind : token.kind = .marker marker)
      (room : depth < maxNesting) (operand : OperandCall token ⟨rest, depth + 1⟩ result inside) :
      FormCall ⟨token :: rest, depth⟩ (result.map (some <| .marked marker.symbol ·)) inside.leave

/-- The loop over the items of a list that `first` opened. A closer of the other kind is left unread. -/
inductive ItemsCall : Token → Delimiter → Reader → Except ReadError (List Datum) → Reader → Prop
  | unbalanced {first : Token} {delimiter : Delimiter} {reader : Reader} (ended : reader.atEnd) :
      ItemsCall first delimiter reader (.error ⟨first.span, .unbalanced⟩) reader
  | closed {first token : Token} {delimiter : Delimiter} {rest : List Token} {depth : Nat}
      (kind : token.kind = .closer delimiter) :
      ItemsCall first delimiter ⟨token :: rest, depth⟩ (.ok []) ⟨rest, depth⟩
  | mismatched {first token : Token} {delimiter other : Delimiter} {rest : List Token} {depth : Nat}
      (kind : token.kind = .closer other) (differs : other ≠ delimiter) :
      ItemsCall first delimiter ⟨token :: rest, depth⟩
        (.error ⟨token.span, .mismatched (.closer delimiter) (.closer other)⟩) ⟨token :: rest, depth⟩
  | failed {first token : Token} {delimiter : Delimiter} {rest : List Token} {depth : Nat}
      {error : ReadError} {after : Reader} (begins : Begins token)
      (call : FormCall ⟨token :: rest, depth⟩ (.error error) after) :
      ItemsCall first delimiter ⟨token :: rest, depth⟩ (.error error) after
  | item {first token : Token} {delimiter : Delimiter} {rest : List Token} {depth : Nat}
      {found : Option Datum} {result : Except ReadError (List Datum)} {middle after : Reader}
      (begins : Begins token) (call : FormCall ⟨token :: rest, depth⟩ (.ok found) middle)
      (others : ItemsCall first delimiter middle result after) :
      ItemsCall first delimiter ⟨token :: rest, depth⟩ (result.map (found.toList ++ ·)) after

inductive OperandCall : Token → Reader → Except ReadError Datum → Reader → Prop
  | unexpectedEof {first : Token} {reader : Reader} (ended : reader.atEnd) :
      OperandCall first reader (.error ⟨first.span, .unexpectedEof⟩) reader
  | failed {first token : Token} {rest : List Token} {depth : Nat} {error : ReadError} {after : Reader}
      (more : token.kind ≠ .eof) (call : FormCall ⟨token :: rest, depth⟩ (.error error) after) :
      OperandCall first ⟨token :: rest, depth⟩ (.error error) after
  | found {first token : Token} {rest : List Token} {depth : Nat} {operand : Datum} {after : Reader}
      (more : token.kind ≠ .eof) (call : FormCall ⟨token :: rest, depth⟩ (.ok (some operand)) after) :
      OperandCall first ⟨token :: rest, depth⟩ (.ok operand) after
  | comment {first token : Token} {rest : List Token} {depth : Nat} {result : Except ReadError Datum}
      {middle after : Reader} (more : token.kind ≠ .eof)
      (call : FormCall ⟨token :: rest, depth⟩ (.ok none) middle)
      (others : OperandCall first middle result after) :
      OperandCall first ⟨token :: rest, depth⟩ result after

end

end Rules

section Progress

variable {taken : List Token} {reader middle after : Reader} {token : Token}

structure Consumes (taken : List Token) (reader after : Reader) : Prop where
  rest : reader.rest = taken ++ after.rest
  depth : after.depth = reader.depth
  inside : ∀ token ∈ taken, token.kind ≠ .eof

theorem Consumes.refl (reader : Reader) : Consumes [] reader reader :=
  ⟨rfl, rfl, by simp⟩

theorem Consumes.single {rest : List Token} {depth : Nat} (more : token.kind ≠ .eof) :
    Consumes [token] ⟨token :: rest, depth⟩ ⟨rest, depth⟩ :=
  ⟨rfl, rfl, List.forall_mem_singleton.mpr more⟩

theorem Consumes.trans {others : List Token} (first : Consumes taken reader middle)
    (second : Consumes others middle after) : Consumes (taken ++ others) reader after where
  rest := by rw [first.rest, second.rest, List.append_assoc]
  depth := second.depth.trans first.depth
  inside := List.forall_mem_append.mpr ⟨first.inside, second.inside⟩

/-- What is taken one level below a token is taken behind it. -/
theorem Consumes.below {rest : List Token} {depth : Nat} {inside : Reader} (more : token.kind ≠ .eof)
    (body : Consumes taken ⟨rest, depth + 1⟩ inside) :
    Consumes (token :: taken) ⟨token :: rest, depth⟩ inside.leave where
  rest := congrArg (token :: ·) body.rest
  depth := by
    rw [leave, body.depth]
    rfl
  inside := List.forall_mem_cons.mpr ⟨more, body.inside⟩

theorem Consumes.shorter (consumed : Consumes taken reader after) (some : taken ≠ []) :
    after.rest.length < reader.rest.length := by
  have : 0 < taken.length := List.length_pos_iff.mpr some
  rw [consumed.rest, List.length_append]
  omega

def Moves (reader : Reader) (result : Except ReadError (Option Datum)) (after : Reader) : Prop :=
  (reader.atEnd ∧ result = .ok none ∧ after = reader) ∨ ∃ taken, taken ≠ [] ∧ Consumes taken reader after

theorem Moves.consumes {result : Except ReadError (Option Datum)} {rest : List Token} {depth : Nat}
    (moves : Moves ⟨token :: rest, depth⟩ result after) (more : token.kind ≠ .eof) :
    ∃ taken, taken ≠ [] ∧ Consumes taken ⟨token :: rest, depth⟩ after := by
  rcases moves with ⟨ended, -, -⟩ | some
  · exact absurd (atEnd_cons.mp ended) more
  · exact some

theorem Moves.exists_consumes {result : Except ReadError (Option Datum)} {rest : List Token} {depth : Nat}
    (moves : Moves ⟨token :: rest, depth⟩ result after) (more : token.kind ≠ .eof) :
    ∃ taken, Consumes taken ⟨token :: rest, depth⟩ after := by
  rcases moves.consumes more with ⟨taken, -, body⟩
  exact ⟨taken, body⟩

theorem Alone.ne_eof {result : Except ReadError (Option Datum)} (alone : Alone token result) :
    token.kind ≠ .eof := by
  cases alone with
  | comment kind | closer kind | unclosedString kind | outOfRange kind => simp [kind]
  | atom single => rcases Grammar.atom_kind single with kind | kind | kind <;> simp [kind]
  | invalidString kind => rcases kind with kind | kind <;> simp [kind]

theorem Opens.ne_eof (opens : Opens token) : token.kind ≠ .eof := by
  rcases opens with ⟨_, kind⟩ | ⟨_, kind⟩ <;> simp [kind]

mutual

/-- Each step of a loop takes what its call takes, so that the depth is restored on every way out. -/
theorem FormCall.moves : ∀ {reader after : Reader} {result : Except ReadError (Option Datum)},
    FormCall reader result after → Moves reader result after
  | _, _, _, .atEnd ended => .inl ⟨ended, rfl, rfl⟩
  | _, _, _, .alone single => .inr ⟨_, List.cons_ne_nil _ _, .single single.ne_eof⟩
  | _, _, _, .tooDeep opens _ => .inr ⟨_, List.cons_ne_nil _ _, .single opens.ne_eof⟩
  | _, _, _, .list kind _ items => by
    rcases items.consumes with ⟨taken, body⟩
    exact .inr ⟨_, List.cons_ne_nil _ _, body.below (by simp [kind])⟩
  | _, _, _, .marked kind _ operand => by
    rcases operand.consumes with ⟨taken, body⟩
    exact .inr ⟨_, List.cons_ne_nil _ _, body.below (by simp [kind])⟩

theorem ItemsCall.consumes : ∀ {first : Token} {delimiter : Delimiter} {reader after : Reader}
    {result : Except ReadError (List Datum)}, ItemsCall first delimiter reader result after →
    ∃ taken, Consumes taken reader after
  | _, _, _, _, _, .unbalanced _ => ⟨[], .refl _⟩
  | _, _, _, _, _, .closed kind => ⟨_, .single (by simp [kind])⟩
  | _, _, _, _, _, .mismatched _ _ => ⟨[], .refl _⟩
  | _, _, _, _, _, .failed begins call => call.moves.exists_consumes begins.1
  | _, _, _, _, _, .item begins call others => by
    rcases call.moves.exists_consumes begins.1 with ⟨taken, body⟩
    rcases others.consumes with ⟨more, behind⟩
    exact ⟨taken ++ more, body.trans behind⟩

theorem OperandCall.consumes : ∀ {first : Token} {reader after : Reader}
    {result : Except ReadError Datum}, OperandCall first reader result after →
    ∃ taken, Consumes taken reader after
  | _, _, _, _, .unexpectedEof _ => ⟨[], .refl _⟩
  | _, _, _, _, .failed more call => call.moves.exists_consumes more
  | _, _, _, _, .found more call => call.moves.exists_consumes more
  | _, _, _, _, .comment more call others => by
    rcases call.moves.exists_consumes more with ⟨taken, body⟩
    rcases others.consumes with ⟨rest, behind⟩
    exact ⟨taken ++ rest, body.trans behind⟩

end

theorem FormCall.shorter {result : Except ReadError (Option Datum)} {rest : List Token} {depth : Nat}
    (call : FormCall ⟨token :: rest, depth⟩ result after) (more : token.kind ≠ .eof) :
    after.rest.length < (token :: rest).length := by
  rcases call.moves.consumes more with ⟨taken, some, body⟩
  exact body.shorter some

theorem FormCall.depth_eq {result : Except ReadError (Option Datum)} {rest : List Token} {depth : Nat}
    (call : FormCall ⟨token :: rest, depth⟩ result after) (more : token.kind ≠ .eof) :
    after.depth = depth := by
  rcases call.moves.exists_consumes more with ⟨taken, body⟩
  exact body.depth

end Progress

section Termination

variable {token first : Token} {delimiter : Delimiter} {rest : List Token} {depth bound : Nat}

theorem exists_alone (more : token.kind ≠ .eof) (closed : ¬Opens token) : ∃ result, Alone token result := by
  cases kind : token.kind with
  | opener delimiter => exact absurd (.inl ⟨delimiter, kind⟩) closed
  | marker marker => exact absurd (.inr ⟨marker, kind⟩) closed
  | closer delimiter => exact ⟨_, .closer kind⟩
  | comment => exact ⟨_, .comment kind⟩
  | unclosedString => exact ⟨_, .unclosedString kind⟩
  | eof => exact absurd kind more
  | plainString | escapedString =>
    have quoted : token.kind = .plainString ∨ token.kind = .escapedString := by simp [kind]
    cases decoded : token.stringText with
    | ok text => exact ⟨_, .atom (.string quoted decoded)⟩
    | error flaw => exact ⟨_, .invalidString quoted decoded⟩
  | word =>
    cases denoted : Datum.ofWord? token.text with
    | some datum => exact ⟨_, .atom ((Grammar.atom_word_iff kind datum).mpr denoted)⟩
    | none => exact ⟨_, .outOfRange kind denoted⟩

def Ends (bound : Nat) : Prop :=
  ∀ rest depth, rest.length ≤ bound → ∃ result after, FormCall ⟨rest, depth⟩ result after

/-- The loop ends because each item takes a token. -/
theorem exists_itemsCall (ends : Ends bound) (few : rest.length ≤ bound) :
    ∃ result after, ItemsCall first delimiter ⟨rest, depth⟩ result after := by
  induction left : rest.length using Nat.strongRecOn generalizing rest depth with
  | ind size ih =>
    cases rest with
    | nil => exact ⟨_, _, .unbalanced rfl⟩
    | cons token behind =>
      by_cases ended : token.kind = .eof
      · exact ⟨_, _, .unbalanced (atEnd_cons.mpr ended)⟩
      by_cases closer : ∃ other, token.kind = .closer other
      · rcases closer with ⟨other, kind⟩
        by_cases same : other = delimiter
        · exact ⟨_, _, .closed (same ▸ kind)⟩
        · exact ⟨_, _, .mismatched kind same⟩
      have begins : Begins token := ⟨ended, not_exists.mp closer⟩
      rcases ends (token :: behind) depth few with ⟨result, after, call⟩
      cases result with
      | error error => exact ⟨_, _, .failed begins call⟩
      | ok found =>
        have less := call.shorter ended
        have fewer := Nat.le_trans (Nat.le_of_lt less) few
        rcases ih after.rest.length (left ▸ less) fewer rfl with ⟨result, last, others⟩
        exact ⟨_, _, .item begins call others⟩

theorem exists_operandCall (ends : Ends bound) (few : rest.length ≤ bound) :
    ∃ result after, OperandCall first ⟨rest, depth⟩ result after := by
  induction left : rest.length using Nat.strongRecOn generalizing rest depth with
  | ind size ih =>
    cases rest with
    | nil => exact ⟨_, _, .unexpectedEof rfl⟩
    | cons token behind =>
      by_cases ended : token.kind = .eof
      · exact ⟨_, _, .unexpectedEof (atEnd_cons.mpr ended)⟩
      rcases ends (token :: behind) depth few with ⟨result, after, call⟩
      cases result with
      | error error => exact ⟨_, _, .failed ended call⟩
      | ok found =>
        cases found with
        | some operand => exact ⟨_, _, .found ended call⟩
        | none =>
          have less := call.shorter ended
          have fewer := Nat.le_trans (Nat.le_of_lt less) few
          rcases ih after.rest.length (left ▸ less) fewer rfl with ⟨result, last, others⟩
          exact ⟨_, _, .comment ended call others⟩

theorem ends (bound : Nat) : Ends bound := by
  induction bound with
  | zero =>
    intro rest depth few
    rw [List.length_eq_zero_iff.mp (Nat.le_zero.mp few)]
    exact ⟨_, _, .atEnd rfl⟩
  | succ bound ih =>
    intro rest depth few
    cases rest with
    | nil => exact ⟨_, _, .atEnd rfl⟩
    | cons token behind =>
      have fewer : behind.length ≤ bound := Nat.le_of_succ_le_succ few
      by_cases ended : token.kind = .eof
      · exact ⟨_, _, .atEnd (atEnd_cons.mpr ended)⟩
      by_cases opens : Opens token
      · rcases Nat.lt_or_ge depth maxNesting with room | full
        · rcases opens with ⟨delimiter, kind⟩ | ⟨marker, kind⟩
          · rcases exists_itemsCall ih fewer with ⟨result, inside, items⟩
            exact ⟨_, _, .list kind room items⟩
          · rcases exists_operandCall ih fewer with ⟨result, inside, operand⟩
            exact ⟨_, _, .marked kind room operand⟩
        · exact ⟨_, _, .tooDeep opens full⟩
      · rcases exists_alone ended opens with ⟨result, single⟩
        exact ⟨_, _, .alone single⟩

end Termination

section Calls

variable {levels fuel depth : Nat} {token first : Token} {rest : List Token} {reader after : Reader}

theorem readForm_alone {result : Except ReadError (Option Datum)} (alone : Alone token result) :
    readForm levels ⟨token :: rest, depth⟩ = settled result ⟨rest, depth⟩ := by
  cases alone with
  | comment kind => exact readForm_comment kind
  | atom single => exact (readForm_single (Grammar.atom_kind single)).mpr ⟨_, single, rfl, rfl⟩
  | closer kind => exact readForm_closer kind
  | invalidString kind flawed => rw [readForm_string kind, flawed, settled]
  | unclosedString kind => exact readForm_unclosed kind
  | outOfRange kind beyond => rw [readForm_word kind, beyond, settled]

theorem nested_full {body : Read α} (full : maxNesting ≤ depth) :
    nested token body ⟨rest, depth⟩ = .error ⟨token.span, .nestingTooDeep⟩ ⟨rest, depth⟩ :=
  if_pos full

theorem nested_map {f : α → β} {body : Read α} {result : Except ReadError α} (room : depth < maxNesting)
    (done : body ⟨rest, depth + 1⟩ = settled result after) :
    nested token (f <$> body) ⟨rest, depth⟩ = settled (result.map f) after.leave := by
  simp only [nested, if_neg (Nat.not_le.mpr room), Functor.map, EStateM.map, enter, done]
  cases result <;> rfl

theorem readForm_full (opens : Opens token) (full : maxNesting ≤ depth) :
    readForm levels ⟨token :: rest, depth⟩ = .error ⟨token.span, .nestingTooDeep⟩ ⟨rest, depth⟩ := by
  cases levels with
  | zero => exact readForm_zero opens
  | succ levels =>
    rcases opens with ⟨delimiter, kind⟩ | ⟨marker, kind⟩
    · rw [readForm_opener kind, nested_full full]
    · rw [readForm_marker kind, nested_full full]

theorem exists_less (enough : maxNesting ≤ levels + depth) (room : depth < maxNesting) :
    ∃ less, levels = less + 1 ∧ maxNesting ≤ less + (depth + 1) :=
  ⟨levels - 1, by omega, by omega⟩

mutual

/-- Calls go by the rules. There are enough levels, and the loops have enough fuel because each of
their steps takes a token. -/
theorem FormCall.readForm_eq : ∀ {reader after : Reader} {result : Except ReadError (Option Datum)},
    FormCall reader result after → ∀ {levels : Nat}, maxNesting ≤ levels + reader.depth →
    readForm levels reader = settled result after
  | _, _, _, .atEnd ended, _, _ => readForm_atEnd ended
  | _, _, _, .alone single, _, _ => readForm_alone single
  | _, _, _, .tooDeep opens full, _, _ => readForm_full opens full
  | _, _, _, .list kind room items, levels, enough => by
    rcases exists_less enough room with ⟨less, rfl, below⟩
    rw [readForm_opener kind]
    exact nested_map room (items.readItems_eq below (Nat.le_refl _))
  | _, _, _, .marked kind room operand, levels, enough => by
    rcases exists_less enough room with ⟨less, rfl, below⟩
    rw [readForm_marker kind]
    exact nested_map room (operand.readOperand_eq below (Nat.le_refl _))

theorem ItemsCall.readItems_eq : ∀ {first : Token} {delimiter : Delimiter} {reader after : Reader}
    {result : Except ReadError (List Datum)}, ItemsCall first delimiter reader result after →
    ∀ {levels fuel : Nat}, maxNesting ≤ levels + reader.depth → reader.rest.length ≤ fuel →
    readItems (readForm levels) first delimiter fuel reader = settled result after
  | _, _, _, _, _, .unbalanced ended, _, _, _, _ => readItems_atEnd ended
  | _, _, _, _, _, .closed kind, _, _ + 1, _, _ => readItems_closer kind
  | _, _, _, _, _, .mismatched kind differs, _, _ + 1, _, _ => readItems_mismatch kind differs
  | _, _, _, _, _, .failed begins call, _, _ + 1, enough, _ => by
    rw [readItems_item begins.1 begins.2]
    exact bind_of_error (call.readForm_eq enough)
  | _, _, _, _, _, .item begins call others, _, _ + 1, enough, fueled => by
    have behind := others.readItems_eq (call.depth_eq begins.1 ▸ enough)
      (Nat.le_of_lt_succ (Nat.lt_of_lt_of_le (call.shorter begins.1) fueled))
    rw [readItems_item begins.1 begins.2, bind_of_ok (call.readForm_eq enough)]
    exact map_of_settled behind _

theorem OperandCall.readOperand_eq : ∀ {first : Token} {reader after : Reader}
    {result : Except ReadError Datum}, OperandCall first reader result after →
    ∀ {levels fuel : Nat}, maxNesting ≤ levels + reader.depth → reader.rest.length ≤ fuel →
    readOperand (readForm levels) first fuel reader = settled result after
  | _, _, _, _, .unexpectedEof ended, _, _, _, _ => readOperand_atEnd ended
  | _, _, _, _, .failed more call, _, _ + 1, enough, _ => by
    rw [readOperand_cons more]
    exact bind_of_error (call.readForm_eq enough)
  | _, _, _, _, .found more call, _, _ + 1, enough, _ => by
    rw [readOperand_cons more]
    exact bind_of_ok (call.readForm_eq enough)
  | _, _, _, _, .comment more call others, _, _ + 1, enough, fueled => by
    rw [readOperand_cons more, bind_of_ok (call.readForm_eq enough)]
    exact others.readOperand_eq (call.depth_eq more ▸ enough)
      (Nat.le_of_lt_succ (Nat.lt_of_lt_of_le (call.shorter more) fueled))

end

theorem formCall_iff {result : Except ReadError (Option Datum)} :
    FormCall reader result after ↔ next reader = settled result after := by
  have known : ∀ {result after}, FormCall reader result after → next reader = settled result after :=
    fun call => call.readForm_eq (Nat.le_add_right _ _)
  constructor
  · exact known
  · intro done
    rcases ends reader.rest.length reader.rest reader.depth (Nat.le_refl _) with ⟨other, later, call⟩
    rcases settled_inj (done.symm.trans (known call)) with ⟨rfl, rfl⟩
    exact call

end Calls

section Recovery

variable {taken tokens : List Token} {reader after : Reader} {depth cursor : Nat}

def continued : (calls : Nat) → Reader → Reader
  | 0, reader => reader
  | calls + 1, reader => continued calls (left reader.next)

theorem exists_formCall (reader : Reader) :
    ∃ result after, FormCall reader result after ∧ next reader = settled result after := by
  rcases ends reader.rest.length reader.rest reader.depth (Nat.le_refl _) with ⟨result, after, call⟩
  exact ⟨result, after, call, formCall_iff.mp call⟩

theorem continued_atEnd (calls : Nat) (ended : reader.atEnd) : continued calls reader = reader := by
  have stays : left reader.next = reader := by rw [next, readForm_atEnd ended, left]
  induction calls with
  | zero => rfl
  | succ calls ih => rw [continued, stays, ih]

/-- All calls together take tokens in front of the end, one at least for each call that does not stand
there already. -/
theorem exists_consumes_continued (calls : Nat) (reader : Reader) :
    ∃ taken, Consumes taken reader (continued calls reader) ∧
      ((continued calls reader).atEnd ∨ calls ≤ taken.length) := by
  induction calls generalizing reader with
  | zero => exact ⟨[], .refl reader, .inr (Nat.le_refl 0)⟩
  | succ calls ih =>
    rcases exists_formCall reader with ⟨result, after, call, done⟩
    rcases call.moves with ⟨ended, -, -⟩ | ⟨taken, some, first⟩
    · rw [continued_atEnd _ ended]
      exact ⟨[], .refl reader, .inl ended⟩
    · rcases ih after with ⟨others, behind, reached⟩
      rw [continued, done, left_settled]
      refine ⟨taken ++ others, first.trans behind, reached.imp_right fun counted => ?_⟩
      have : 0 < taken.length := List.length_pos_iff.mpr some
      rw [List.length_append]
      omega

theorem continued_reaches {calls : Nat} (enough : reader.rest.length ≤ calls) :
    (continued calls reader).atEnd := by
  rcases exists_consumes_continued calls reader with ⟨taken, consumed, ended | counted⟩
  · exact ended
  · -- then all tokens were taken
    have none : (continued calls reader).rest = [] := by
      have whole := congrArg List.length consumed.rest
      rw [List.length_append] at whole
      exact List.length_eq_zero_iff.mp (by omega)
    rw [atEnd, current?, none]
    rfl

theorem Consumes.eq_of_atEnd (consumed : Consumes taken reader after) (ended : after.atEnd) :
    after = ⟨reader.rest.dropWhile (!·.isEof), reader.depth⟩ := by
  have continues : ∀ token ∈ taken, (!token.isEof) = true := by
    intro token member
    simp [Token.isEof, consumed.inside token member]
  rcases after with ⟨rest, depth⟩
  rw [← consumed.depth, consumed.rest, List.dropWhile_append_of_pos continues]
  cases rest with
  | nil => rfl
  | cons token rest => simp [Token.isEof, atEnd_cons.mp ended]

theorem Consumes.drop_length (consumed : Consumes taken ⟨tokens.drop cursor, depth⟩ after) :
    after = ⟨tokens.drop (cursor + taken.length), depth⟩ := by
  have split : tokens.drop cursor = taken ++ after.rest := consumed.rest
  have same : after.depth = depth := consumed.depth
  rw [← List.drop_drop, split, List.drop_left, ← same]

theorem Consumes.length_le (consumed : Consumes taken ⟨tokens.drop cursor, depth⟩ after) :
    taken.length ≤ tokens.length - cursor := by
  have whole := congrArg List.length consumed.rest
  rw [List.length_append, List.length_drop] at whole
  omega

/-- A call ends wherever the cursor stands and however many forms are open, by rules that bound
nothing. At the end of the input it changes nothing; elsewhere it moves the cursor on within the tokens.
It leaves the depth as it was, also where it fails. So as many calls as there are tokens lead to the
end of the input, and each call reads what the grammar has at level 0 where its predecessors stopped. -/
theorem next_progresses (tokens : List Token) :
    (∀ cursor depth, ∃ result after,
      (∀ other later, FormCall ⟨tokens.drop cursor, depth⟩ other later ↔ other = result ∧ later = after) ∧
      next ⟨tokens.drop cursor, depth⟩ = settled result after ∧
      ((atEnd ⟨tokens.drop cursor, depth⟩ ∧ result = .ok none ∧ after = ⟨tokens.drop cursor, depth⟩) ∨
        ∃ further, cursor < further ∧ further ≤ tokens.length ∧ after = ⟨tokens.drop further, depth⟩)) ∧
    (∀ more, atEnd (continued (tokens.length + more) ⟨tokens, 0⟩) ∧
      continued (tokens.length + more) ⟨tokens, 0⟩ = ⟨tokens.dropWhile (!·.isEof), 0⟩) ∧
    ∀ calls, ∃ cursor, cursor ≤ tokens.length ∧ continued calls ⟨tokens, 0⟩ = ⟨tokens.drop cursor, 0⟩ ∧
      ∀ form after, next (continued calls ⟨tokens, 0⟩) = .ok form after ↔
        Step 0 (tokens.drop cursor) form after := by
  refine ⟨?_, ?_, ?_⟩
  · intro cursor depth
    rcases exists_formCall ⟨tokens.drop cursor, depth⟩ with ⟨result, after, call, done⟩
    refine ⟨result, after, ?_, done, call.moves.imp_right ?_⟩
    · intro other later
      rw [formCall_iff, done]
      constructor
      · intro same
        rcases settled_inj same with ⟨rfl, rfl⟩
        exact ⟨rfl, rfl⟩
      · intro same
        rw [same.1, same.2]
    · intro progress
      rcases progress with ⟨taken, some, consumed⟩
      have counted : 0 < taken.length := List.length_pos_iff.mpr some
      have bounded := consumed.length_le
      exact ⟨cursor + taken.length, by omega, by omega, consumed.drop_length⟩
  · intro more
    have ended : atEnd (continued (tokens.length + more) ⟨tokens, 0⟩) :=
      continued_reaches (Nat.le_add_right _ _)
    rcases exists_consumes_continued (tokens.length + more) ⟨tokens, 0⟩ with ⟨taken, consumed, -⟩
    exact ⟨ended, consumed.eq_of_atEnd ended⟩
  · intro calls
    rcases exists_consumes_continued calls ⟨tokens.drop 0, 0⟩ with ⟨taken, consumed, -⟩
    have stopped : continued calls ⟨tokens, 0⟩ = _ := consumed.drop_length
    have bounded := consumed.length_le
    refine ⟨0 + taken.length, by omega, stopped, fun form after => ?_⟩
    rw [stopped]
    exact readForm_top _ _ _

end Recovery

end Reader

end LispCompiler
