import LispCompiler.Proofs.Datum.Grammar
import LispCompiler.Proofs.Outcomes
import LispCompiler.Proofs.Token.Lexing

namespace LispCompiler

namespace Reader

open Grammar

section Equations

variable {levels depth fuel : Nat} {token first : Token} {rest : List Token} {reader after : Reader}
  {read : Read (Option Datum)} {delimiter : Delimiter}

theorem current?_cons (more : token.kind ≠ .eof) : current? ⟨token :: rest, depth⟩ = some token := by
  simp [current?, Token.isEof, more]

theorem atEnd_cons : atEnd ⟨token :: rest, depth⟩ ↔ token.kind = .eof := by
  by_cases kind : token.kind = .eof <;> simp [atEnd, current?, Token.isEof, kind]

theorem advance_bind {next : Option Token → Read α} (more : token.kind ≠ .eof) :
    (advance >>= next) ⟨token :: rest, depth⟩ = next (some token) ⟨rest, depth⟩ := by
  have taken : advance ⟨token :: rest, depth⟩ = .ok (some token) ⟨rest, depth⟩ := by
    rw [advance, get_bind, current?_cons more]
    rfl
  simp only [bind, EStateM.bind, taken]

theorem readForm_comment (kind : token.kind = .comment) :
    readForm levels ⟨token :: rest, depth⟩ = .ok none ⟨rest, depth⟩ := by
  rw [readForm.eq_def, advance_bind (by simp [kind])]
  simp only [kind]
  rfl

theorem readForm_opener (kind : token.kind = .opener delimiter) :
    readForm (levels + 1) ⟨token :: rest, depth⟩ =
      nested token ((some <| .list ·) <$> readItems (readForm levels) token delimiter rest.length)
        ⟨rest, depth⟩ := by
  rw [readForm.eq_def, advance_bind (by simp [kind])]
  simp only [kind]
  rfl

theorem readForm_marker {marker : Marker} (kind : token.kind = .marker marker) :
    readForm (levels + 1) ⟨token :: rest, depth⟩ =
      nested token
        ((some <| .marked marker.symbol ·) <$> readOperand (readForm levels) token rest.length)
        ⟨rest, depth⟩ := by
  rw [readForm.eq_def, advance_bind (by simp [kind])]
  simp only [kind]
  rfl

theorem readForm_zero
    (opens : (∃ other, token.kind = .opener other) ∨ ∃ marker, token.kind = .marker marker) :
    readForm 0 ⟨token :: rest, depth⟩ = .error ⟨token.span, .nestingTooDeep⟩ ⟨rest, depth⟩ := by
  have more : token.kind ≠ .eof := by rcases opens with ⟨_, kind⟩ | ⟨_, kind⟩ <;> simp [kind]
  rw [readForm.eq_def, advance_bind more]
  rcases opens with ⟨_, kind⟩ | ⟨_, kind⟩
  all_goals
    simp only [kind, nested]
    split <;> rfl

theorem readForm_closer (kind : token.kind = .closer delimiter) :
    readForm levels ⟨token :: rest, depth⟩ =
      .error ⟨token.span, .unexpectedCloser⟩ ⟨rest, depth⟩ := by
  rw [readForm.eq_def, advance_bind (by simp [kind])]
  simp only [kind]
  rfl

theorem readForm_unclosed (kind : token.kind = .unclosedString) :
    readForm levels ⟨token :: rest, depth⟩ =
      .error ⟨token.span, .unclosedString⟩ ⟨rest, depth⟩ := by
  rw [readForm.eq_def, advance_bind (by simp [kind])]
  simp only [kind]
  rfl

theorem readForm_word (kind : token.kind = .word) :
    readForm levels ⟨token :: rest, depth⟩ =
      match Datum.ofWord? token.text with
      | some atom => .ok (some atom) ⟨rest, depth⟩
      | none => .error ⟨token.span, .numberOutOfRange⟩ ⟨rest, depth⟩ := by
  rw [readForm.eq_def, advance_bind (by simp [kind])]
  simp only [kind]
  cases Datum.ofWord? token.text <;> rfl

theorem readForm_string (kind : token.kind = .plainString ∨ token.kind = .escapedString) :
    readForm levels ⟨token :: rest, depth⟩ =
      match token.stringText with
      | .ok text => .ok (some (.string text)) ⟨rest, depth⟩
      | .error flaw => .error ⟨token.span, .invalidString flaw⟩ ⟨rest, depth⟩ := by
  rw [readForm.eq_def, advance_bind (by rcases kind with kind | kind <;> simp [kind])]
  rcases kind with kind | kind <;> simp only [kind] <;> cases token.stringText <;> rfl

theorem readForm_single {form : Option Datum}
    (kind : token.kind = .plainString ∨ token.kind = .escapedString ∨ token.kind = .word) :
    readForm levels ⟨token :: rest, depth⟩ = .ok form after ↔
      ∃ datum, Atom token datum ∧ some datum = form ∧ ⟨rest, depth⟩ = after := by
  rcases or_assoc.mpr kind with quoted | word
  · rw [readForm_string quoted]
    cases decoded : token.stringText <;> simp [atom_string_iff quoted, decoded]
  · rw [readForm_word word]
    cases denoted : Datum.ofWord? token.text <;> simp [atom_word_iff word, denoted]

theorem readItems_closer (kind : token.kind = .closer delimiter) :
    readItems read first delimiter (fuel + 1) ⟨token :: rest, depth⟩ = .ok [] ⟨rest, depth⟩ := by
  rw [readItems, get_bind, current?_cons (by simp [kind])]
  simp only [kind, if_true]
  rfl

theorem readItems_mismatch {other : Delimiter} (kind : token.kind = .closer other)
    (differs : other ≠ delimiter) :
    readItems read first delimiter (fuel + 1) ⟨token :: rest, depth⟩ =
      .error ⟨token.span, .mismatched (.closer delimiter) (.closer other)⟩
        ⟨token :: rest, depth⟩ := by
  rw [readItems, get_bind, current?_cons (by simp [kind])]
  simp only [kind, if_neg differs]
  rfl

theorem readItems_item (more : token.kind ≠ .eof) (stays : ∀ other, token.kind ≠ .closer other) :
    readItems read first delimiter (fuel + 1) ⟨token :: rest, depth⟩ =
      (do
        let item ← read
        let items ← readItems read first delimiter fuel
        return item.toList ++ items : Read (List Datum)) ⟨token :: rest, depth⟩ := by
  rw [readItems, get_bind, current?_cons more]
  cases kind : token.kind with
  | closer other => exact absurd kind (stays other)
  | _ => simp only [kind]

theorem readOperand_cons (more : token.kind ≠ .eof) :
    readOperand read first (fuel + 1) ⟨token :: rest, depth⟩ =
      (do (← read).elim (readOperand read first fuel) pure : Read Datum) ⟨token :: rest, depth⟩ := by
  rw [readOperand, get_bind, current?_cons more]
  simp only [bind, EStateM.bind]
  cases read ⟨token :: rest, depth⟩ with
  | ok found later => cases found <;> rfl
  | error error later => rfl

theorem nested_map_eq_ok {f : α → β} {body : Read α} {value : β} :
    nested token (f <$> body) ⟨rest, depth⟩ = .ok value after ↔
      depth < maxNesting ∧ ∃ found inner, body ⟨rest, depth + 1⟩ = .ok found inner ∧
        f found = value ∧ inner.leave = after := by
  by_cases deep : maxNesting ≤ depth
  · have fails : nested token (f <$> body) ⟨rest, depth⟩ =
        .error ⟨token.span, .nestingTooDeep⟩ ⟨rest, depth⟩ := if_pos deep
    simp [fails, Nat.not_lt.mpr deep]
  · simp only [nested, if_neg deep, Functor.map, EStateM.map, enter, Nat.lt_of_not_le deep, true_and]
    cases body ⟨rest, depth + 1⟩ <;> simp [and_assoc]

end Equations

/-- What reading takes from the tokens: nothing at the end, a comment, or the tokens of a form. -/
inductive Step (level : Nat) : List Token → Option Datum → Reader → Prop
  | atEnd {tokens : List Token} (ended : atEnd ⟨tokens, level⟩) :
      Step level tokens none ⟨tokens, level⟩
  | comment {token : Token} {rest : List Token} (skipped : token.kind = .comment) :
      Step level (token :: rest) none ⟨rest, level⟩
  | form {tokens first rest : List Token} {datum : Datum} (split : tokens = first ++ rest)
      (one : Form level first datum) : Step level tokens (some datum) ⟨rest, level⟩

def Reads (read : Read (Option Datum)) (level : Nat) : Prop :=
  ∀ tokens form after, read ⟨tokens, level⟩ = .ok form after ↔ Step level tokens form after

theorem Reads.comment {read : Read (Option Datum)} {level : Nat} {token : Token} {rest : List Token}
    (reads : Reads read level) (skipped : token.kind = .comment) :
    read ⟨token :: rest, level⟩ = .ok none ⟨rest, level⟩ :=
  (reads _ _ _).mpr (.comment skipped)

theorem Reads.form {read : Read (Option Datum)} {level : Nat} {first rest : List Token}
    {datum : Datum} (reads : Reads read level) (one : Form level first datum) :
    read ⟨first ++ rest, level⟩ = .ok (some datum) ⟨rest, level⟩ :=
  (reads _ _ _).mpr (.form rfl one)

section Loops

variable {level fuel : Nat} {tokens : List Token} {read : Read (Option Datum)} {first : Token}
  {delimiter : Delimiter} {after : Reader}

theorem readItems_sound {items : List Datum} (reads : Reads read level)
    (done : readItems read first delimiter fuel ⟨tokens, level⟩ = .ok items after) :
    ∃ inner last rest, tokens = inner ++ last :: rest ∧ last.kind = .closer delimiter ∧
      Forms level inner items ∧ after = ⟨rest, level⟩ := by
  induction fuel generalizing tokens items with
  | zero => cases done
  | succ fuel ih =>
    cases tokens with
    | nil =>
      rw [readItems_atEnd rfl] at done
      cases done
    | cons token rest =>
      by_cases ended : token.kind = .eof
      · rw [readItems_atEnd (atEnd_cons.mpr ended)] at done
        cases done
      by_cases closes : token.kind = .closer delimiter
      · rw [readItems_closer closes] at done
        cases done
        exact ⟨[], token, rest, rfl, closes, .nil, rfl⟩
      by_cases mismatch : ∃ other, token.kind = .closer other
      · rcases mismatch with ⟨other, kind⟩
        have differs : other ≠ delimiter := by
          rintro rfl
          exact closes kind
        rw [readItems_mismatch kind differs] at done
        cases done
      rw [readItems_item ended (fun other kind => mismatch ⟨other, kind⟩)] at done
      rcases bind_eq_ok_iff.mp done with ⟨item, middle, taken, done⟩
      rcases bind_eq_ok_iff.mp done with ⟨others, last, remaining, done⟩
      cases done
      cases (reads _ _ _).mp taken with
      | atEnd none => exact absurd (atEnd_cons.mp none) ended
      | comment skipped =>
        rcases ih remaining with ⟨inner, last, rest, rfl, closes, forms, rfl⟩
        exact ⟨token :: inner, last, rest, rfl, closes, .comment skipped forms, rfl⟩
      | form split one =>
        rcases ih remaining with ⟨inner, last, rest, rfl, closes, forms, rfl⟩
        rw [split]
        exact ⟨_ ++ inner, last, rest, by simp, closes, .form one forms, rfl⟩

theorem readOperand_sound {operand : Datum} (reads : Reads read level)
    (done : readOperand read first fuel ⟨tokens, level⟩ = .ok operand after) :
    ∃ comments inner rest, tokens = comments ++ inner ++ rest ∧ Comments comments ∧
      Form level inner operand ∧ after = ⟨rest, level⟩ := by
  induction fuel generalizing tokens with
  | zero => cases done
  | succ fuel ih =>
    cases tokens with
    | nil =>
      rw [readOperand_atEnd rfl] at done
      cases done
    | cons token rest =>
      by_cases ended : token.kind = .eof
      · rw [readOperand_atEnd (atEnd_cons.mpr ended)] at done
        cases done
      rw [readOperand_cons ended] at done
      rcases bind_eq_ok_iff.mp done with ⟨found, middle, taken, done⟩
      cases (reads _ _ _).mp taken with
      | atEnd none => exact absurd (atEnd_cons.mp none) ended
      | comment skipped =>
        rcases ih done with ⟨comments, inner, rest, rfl, skippedToo, form, rfl⟩
        refine ⟨token :: comments, inner, rest, rfl, ?_, form, rfl⟩
        exact List.forall_mem_cons.mpr ⟨skipped, skippedToo⟩
      | form split one =>
        cases done
        rw [split]
        exact ⟨[], _, _, rfl, by simp [Comments], one, rfl⟩

theorem readItems_step {token : Token} {rest : List Token} {item : Option Datum}
    {others : List Datum} {middle : Reader} (more : token.kind ≠ .eof)
    (stays : ∀ other, token.kind ≠ .closer other)
    (taken : read ⟨token :: rest, level⟩ = .ok item middle)
    (remaining : readItems read first delimiter fuel middle = .ok others after) :
    readItems read first delimiter (fuel + 1) ⟨token :: rest, level⟩ =
      .ok (item.toList ++ others) after := by
  rw [readItems_item more stays]
  exact bind_eq_ok_iff.mpr ⟨item, middle, taken, bind_eq_ok_iff.mpr ⟨others, after, remaining, rfl⟩⟩

theorem readItems_complete {items : List Datum} {last : Token} {rest : List Token}
    (reads : Reads read level) (closes : last.kind = .closer delimiter)
    (forms : Forms level tokens items) (fueled : tokens.length < fuel) :
    readItems read first delimiter fuel ⟨tokens ++ last :: rest, level⟩ =
      .ok items ⟨rest, level⟩ := by
  induction forms using forms_induction generalizing fuel with
  | nil =>
    rcases Nat.exists_eq_add_one.mpr fueled with ⟨fuel, rfl⟩
    exact readItems_closer closes
  | comment skipped others ih =>
    rcases Nat.exists_eq_add_one.mpr (Nat.zero_lt_of_lt fueled) with ⟨fuel, rfl⟩
    rw [List.cons_append]
    refine readItems_step ?_ ?_ (reads.comment skipped) (ih (Nat.lt_of_succ_lt_succ fueled))
    · simp [skipped]
    · simp [skipped]
  | form one others ih =>
    rcases Nat.exists_eq_add_one.mpr (Nat.zero_lt_of_lt fueled) with ⟨fuel, rfl⟩
    rcases form_head one with ⟨token, behind, rfl, more, stays⟩
    rw [List.append_assoc]
    refine readItems_step more stays (reads.form one) (ih ?_)
    simp only [List.length_append, List.length_cons] at fueled
    omega

theorem readOperand_complete {operand : Datum} {comments inner rest : List Token}
    (reads : Reads read level) (skipped : Comments comments) (form : Form level inner operand)
    (fueled : comments.length < fuel) :
    readOperand read first fuel ⟨comments ++ inner ++ rest, level⟩ = .ok operand ⟨rest, level⟩ := by
  rcases form_head form with ⟨head, tail, rfl, more, -⟩
  induction comments generalizing fuel with
  | nil =>
    rcases Nat.exists_eq_add_one.mpr fueled with ⟨fuel, rfl⟩
    rw [List.nil_append, List.cons_append, readOperand_cons more]
    exact bind_eq_ok_iff.mpr ⟨some operand, _, reads.form form, rfl⟩
  | cons comment comments ih =>
    rcases Nat.exists_eq_add_one.mpr (Nat.zero_lt_of_lt fueled) with ⟨fuel, rfl⟩
    rcases List.forall_mem_cons.mp skipped with ⟨kind, skipped⟩
    rw [List.cons_append, List.cons_append, readOperand_cons (by simp [kind])]
    refine bind_eq_ok_iff.mpr ⟨none, _, reads.comment kind, ?_⟩
    exact ih skipped (Nat.lt_of_succ_lt_succ fueled)

end Loops

section Forms

variable {levels level : Nat} {tokens : List Token} {form : Option Datum} {after : Reader}

theorem readForm_sound (below : ∀ less, levels = less + 1 → Reads (readForm less) (level + 1))
    (done : readForm levels ⟨tokens, level⟩ = .ok form after) : Step level tokens form after := by
  cases tokens with
  | nil =>
    rw [readForm_atEnd rfl] at done
    cases done
    exact .atEnd rfl
  | cons token rest =>
    cases kind : token.kind with
    | eof =>
      have ended : atEnd ⟨token :: rest, level⟩ := atEnd_cons.mpr kind
      rw [readForm_atEnd ended] at done
      cases done
      exact .atEnd ended
    | comment =>
      rw [readForm_comment kind] at done
      cases done
      exact .comment kind
    | opener delimiter =>
      cases levels with
      | zero =>
        rw [readForm_zero (.inl ⟨delimiter, kind⟩)] at done
        cases done
      | succ levels =>
        rw [readForm_opener kind] at done
        rcases nested_map_eq_ok.mp done with ⟨shallow, items, inside, read, rfl, rfl⟩
        obtain ⟨inner, last, rest, rfl, closes, forms, rfl⟩ :=
          readItems_sound (below levels rfl) read
        exact .form (by simp) (.list kind closes shallow forms)
    | marker marker =>
      cases levels with
      | zero =>
        rw [readForm_zero (.inr ⟨marker, kind⟩)] at done
        cases done
      | succ levels =>
        rw [readForm_marker kind] at done
        rcases nested_map_eq_ok.mp done with ⟨shallow, operand, inside, read, rfl, rfl⟩
        obtain ⟨comments, inner, rest, rfl, skipped, form, rfl⟩ :=
          readOperand_sound (below levels rfl) read
        exact .form (by simp) (.marked kind shallow skipped form)
    | closer delimiter =>
      rw [readForm_closer kind] at done
      cases done
    | unclosedString =>
      rw [readForm_unclosed kind] at done
      cases done
    | plainString | escapedString | word =>
      rcases (readForm_single (by simp [kind])).mp done with ⟨datum, single, rfl, rfl⟩
      exact .form rfl (.atom single)

theorem readForm_complete (below : ∀ less, levels = less + 1 → Reads (readForm less) (level + 1))
    (enough : maxNesting ≤ levels + level) (step : Step level tokens form after) :
    readForm levels ⟨tokens, level⟩ = .ok form after := by
  cases step with
  | atEnd ended => exact readForm_atEnd ended
  | comment skipped => exact readForm_comment skipped
  | form split one =>
    subst split
    cases one with
    | atom single => exact (readForm_single (atom_kind single)).mpr ⟨_, single, rfl, rfl⟩
    | list opens closes shallow between =>
      obtain ⟨less, rfl⟩ : ∃ less, levels = less + 1 := ⟨levels - 1, by omega⟩
      rw [List.cons_append, readForm_opener opens, nested_map_eq_ok]
      refine ⟨shallow, _, ⟨_, level + 1⟩, ?_, rfl, rfl⟩
      rw [List.append_assoc]
      exact readItems_complete (below less rfl) closes between (by simp)
    | marked marks shallow skipped behind =>
      obtain ⟨less, rfl⟩ : ∃ less, levels = less + 1 := ⟨levels - 1, by omega⟩
      rcases form_head behind with ⟨head, tail, inner, -⟩
      rw [List.cons_append, readForm_marker marks, nested_map_eq_ok]
      refine ⟨shallow, _, ⟨_, level + 1⟩, ?_, rfl, rfl⟩
      exact readOperand_complete (below less rfl) skipped behind (by simp [inner])

/-- Lists and quote marks are read with one level less and one more open, so that the levels run out
only where nothing may be opened. -/
theorem readForm_reads (enough : maxNesting ≤ levels + level) : Reads (readForm levels) level := by
  induction levels generalizing level with
  | zero =>
    exact fun _ _ _ => ⟨readForm_sound nofun, readForm_complete nofun enough⟩
  | succ levels ih =>
    have below : ∀ less, levels + 1 = less + 1 → Reads (readForm less) (level + 1) := by
      rintro less ⟨⟩
      exact ih (by omega)
    exact fun _ _ _ => ⟨readForm_sound below, readForm_complete below enough⟩

end Forms

section Sources

variable {fuel : Nat} {tokens rest : List Token} {data : List Datum} {after : Reader}

theorem readForm_top : Reads (readForm maxNesting) 0 :=
  readForm_reads (Nat.le_refl _)

theorem readForms_atEnd {reader : Reader} (ended : reader.atEnd) :
    readForms fuel reader = .ok [] reader := by
  cases fuel with
  | zero => rfl
  | succ fuel =>
    rw [readForms, get_bind, if_pos ended]
    rfl

theorem readForms_cons {token : Token} (more : token.kind ≠ .eof) :
    readForms (fuel + 1) ⟨token :: rest, 0⟩ =
      (do
        let form ← readForm maxNesting
        let forms ← readForms fuel
        return form.toList ++ forms : Read (List Datum)) ⟨token :: rest, 0⟩ := by
  rw [readForms, get_bind, if_neg (fun ended => more (atEnd_cons.mp ended))]

theorem readForms_sound (done : readForms fuel ⟨tokens, 0⟩ = .ok data after)
    (fueled : tokens.length ≤ fuel) :
    ∃ used rest, tokens = used ++ rest ∧ atEnd ⟨rest, 0⟩ ∧ Forms 0 used data := by
  induction fuel generalizing tokens data with
  | zero =>
    obtain rfl := List.length_eq_zero_iff.mp (Nat.le_zero.mp fueled)
    cases done
    exact ⟨[], [], rfl, rfl, .nil⟩
  | succ fuel ih =>
    cases tokens with
    | nil =>
      rw [readForms_atEnd rfl] at done
      cases done
      exact ⟨[], [], rfl, rfl, .nil⟩
    | cons token rest =>
      by_cases ended : token.kind = .eof
      · have atEnd : atEnd ⟨token :: rest, 0⟩ := atEnd_cons.mpr ended
        rw [readForms_atEnd atEnd] at done
        cases done
        exact ⟨[], _, rfl, atEnd, .nil⟩
      rw [readForms_cons ended] at done
      rcases bind_eq_ok_iff.mp done with ⟨form, middle, taken, done⟩
      rcases bind_eq_ok_iff.mp done with ⟨others, last, remaining, done⟩
      cases done
      cases (readForm_top _ _ _).mp taken with
      | atEnd none => exact absurd (atEnd_cons.mp none) ended
      | comment skipped =>
        rcases ih remaining (Nat.le_of_succ_le_succ fueled) with ⟨used, rest, rfl, atEnd, forms⟩
        exact ⟨token :: used, rest, rfl, atEnd, .comment skipped forms⟩
      | form split one =>
        rcases form_head one with ⟨head, tail, rfl, -⟩
        rw [split] at fueled ⊢
        simp only [List.length_append, List.length_cons] at fueled
        rcases ih remaining (by omega) with ⟨used, rest, rfl, atEnd, forms⟩
        exact ⟨head :: tail ++ used, rest, by simp, atEnd, .form one forms⟩

theorem readForms_complete (forms : Forms 0 tokens data) (ended : atEnd ⟨rest, 0⟩)
    (fueled : tokens.length ≤ fuel) :
    readForms fuel ⟨tokens ++ rest, 0⟩ = .ok data ⟨rest, 0⟩ := by
  induction forms using forms_induction generalizing fuel with
  | nil => exact readForms_atEnd ended
  | comment skipped others ih =>
    rcases Nat.exists_eq_add_one.mpr (Nat.zero_lt_of_lt fueled) with ⟨fuel, rfl⟩
    rw [List.cons_append, readForms_cons (by simp [skipped])]
    refine bind_eq_ok_iff.mpr ⟨none, _, readForm_top.comment skipped, ?_⟩
    exact bind_eq_ok_iff.mpr ⟨_, _, ih (Nat.le_of_succ_le_succ fueled), rfl⟩
  | @form first tokens datum data one others ih =>
    rcases form_head one with ⟨head, tail, rfl, more, -⟩
    rcases Nat.exists_eq_add_one.mpr (Nat.zero_lt_of_lt fueled) with ⟨fuel, rfl⟩
    simp only [List.length_append, List.length_cons] at fueled
    rw [List.append_assoc, List.cons_append, readForms_cons more]
    refine bind_eq_ok_iff.mpr ⟨some datum, _, readForm_top.form one, ?_⟩
    exact bind_eq_ok_iff.mpr ⟨_, _, ih (by omega), rfl⟩

def unread (tokens : List Token) : List Token :=
  tokens.takeWhile (!·.isEof)

theorem unread_append (others : ∀ token ∈ tokens, token.kind ≠ .eof) :
    unread (tokens ++ rest) = tokens ++ unread rest := by
  apply List.takeWhile_append_of_pos
  intro token member
  simp [Token.isEof, others token member]

theorem unread_atEnd {depth : Nat} (ended : atEnd ⟨tokens, depth⟩) : unread tokens = [] := by
  cases tokens with
  | nil => rfl
  | cons token rest => simp [unread, Token.isEof, atEnd_cons.mp ended]

theorem readAll_eq_ok {source : String} : Datum.readAll source = .ok data ↔
    ∃ after, readForms (Token.lex source).length ⟨Token.lex source, 0⟩ = .ok data after := by
  unfold Datum.readAll
  rw [withFuel, get_bind, ofSource]
  split
  · next read => simp [read]
  · next read => simp [read]

theorem readAll_complete {source : String} {last : Token} (lexed : Token.lex source = tokens ++ [last])
    (ends : last.kind = .eof) (forms : Forms 0 tokens data) : Datum.readAll source = .ok data := by
  rw [readAll_eq_ok, lexed]
  exact ⟨_, readForms_complete forms (atEnd_cons.mpr ends) (by simp)⟩

theorem step_iff_first {token : Token} {form : Option Datum} :
    (∃ after, Step 0 (token :: rest) form after) ↔ First (token :: rest) form := by
  constructor
  · intro steps
    rcases steps with ⟨after, step⟩
    cases step with
    | atEnd ended => exact .nothing (.inr (atEnd_cons.mp ended))
    | comment skipped => exact .nothing (.inl skipped)
    | form split one => exact split ▸ .form one
  · intro stands
    generalize whole : token :: rest = tokens at stands
    cases stands with
    | form one => exact ⟨_, .form rfl one⟩
    | nothing skipped =>
      cases whole
      rcases skipped with comment | eof
      · exact ⟨_, .comment comment⟩
      · exact ⟨_, .atEnd (atEnd_cons.mpr eof)⟩

theorem readFirst_eq_ok_iff {source : String} {form : Option Datum} :
    Datum.readFirst source = .ok form ↔ First (Token.lex source) form := by
  have nonempty : Token.lex source ≠ [] := by
    rcases Token.lexFrom_ends 0 source.toList with ⟨body, last, lexed, -⟩
    simp [Token.lex, lexed]
  rcases List.exists_cons_of_ne_nil nonempty with ⟨token, rest, lexed⟩
  have reads : Datum.readFirst source = .ok form ↔
      ∃ after, readForm maxNesting ⟨token :: rest, 0⟩ = .ok form after := by
    rw [Datum.readFirst, next, ofSource, lexed]
    cases readForm maxNesting ⟨token :: rest, 0⟩ <;> simp
  rw [reads, lexed, ← step_iff_first]
  exact exists_congr fun after => readForm_top (token :: rest) form after

theorem readFirst_complete {source : String} {datum : Datum} (lexed : Token.lex source = tokens ++ rest)
    (form : Form 0 tokens datum) : Datum.readFirst source = .ok (some datum) := by
  rw [readFirst_eq_ok_iff, lexed]
  exact .form form

theorem readFirst_sound {source : String} {datum : Datum}
    (read : Datum.readFirst source = .ok (some datum)) :
    ∃ tokens rest, Token.lex source = tokens ++ rest ∧ Form 0 tokens datum := by
  have stands := readFirst_eq_ok_iff.mp read
  generalize Token.lex source = tokens at stands ⊢
  cases stands with
  | form one => exact ⟨_, _, rfl, one⟩

theorem lex_of_readAll {source : String} (read : Datum.readAll source = .ok data) :
    ∃ body last, Token.lex source = body ++ [last] ∧ last.kind = .eof ∧ Forms 0 body data := by
  rcases Token.lexFrom_ends 0 source.toList with ⟨body, last, lexed, ends, others⟩
  have ended : atEnd ⟨[last], 0⟩ := atEnd_cons.mpr ends
  rcases readAll_eq_ok.mp read with ⟨after, done⟩
  rcases readForms_sound done (Nat.le_refl _) with ⟨used, rest, split, stopped, forms⟩
  have same : used = body := calc
    used = unread (used ++ rest) := by
      rw [unread_append (forms_ne_eof forms), unread_atEnd stopped, List.append_nil]
    _ = unread (body ++ [last]) := by rw [← split, ← lexed, Token.lex]
    _ = body := by rw [unread_append others, unread_atEnd ended, List.append_nil]
  exact ⟨body, last, lexed, ends, same ▸ forms⟩

/-- Reading a source succeeds with some data if and only if its tokens are a program with these data,
so the reader neither accepts nor refuses anything that the grammar does not. -/
theorem readAll_iff_program (source : String) (data : List Datum) :
    Datum.readAll source = .ok data ↔ Program (Token.lex source).dropLast data := by
  constructor
  · intro read
    rcases lex_of_readAll read with ⟨body, last, lexed, -, forms⟩
    rwa [lexed, List.dropLast_concat]
  · intro program
    rcases Token.lexFrom_ends 0 source.toList with ⟨body, last, lexed, ends, -⟩
    change Token.lex source = body ++ [last] at lexed
    rw [lexed, List.dropLast_concat] at program
    exact readAll_complete lexed ends program

end Sources

end Reader

end LispCompiler
