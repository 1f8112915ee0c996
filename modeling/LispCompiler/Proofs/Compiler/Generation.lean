import Mathlib
import LispCompiler.Proofs.Compiler.Lines
import LispCompiler.Proofs.Compiler.Loading

namespace LispCompiler

section Texts

def lineOf (code : Option String) : List UInt8 :=
  code.toList.flatMap Compiler.ended

def linesBefore : List (Except CompileError (Option String)) → List UInt8
  | [] => []
  | .ok code :: results => lineOf code ++ linesBefore results
  | .error _ :: _ => []

def failure? : List (Except CompileError (Option String)) → Option CompileError
  | [] => none
  | .ok _ :: results => failure? results
  | .error error :: _ => some error

def verdict (room : Nat) (refusal : String) (text : List UInt8) (failure : Option CompileError) :
    Except GenerateError Unit :=
  if room < text.length then .error (.output refusal)
  else failure.elim (.ok ()) fun error => .error (.compile error)

def Sink.after (bytes : List UInt8) (room : Nat) (refusal : String) (text : List UInt8) : Sink :=
  ⟨bytes ++ text.take room, some (room - text.length), refusal⟩

variable {bytes line text : List UInt8} {room : Nat} {refusal : String} {failure : Option CompileError}

theorem lineOf_some (fragment : String) : lineOf (some fragment) = Bytes.ofText (fragment ++ "\n") := by
  rw [Compiler.ofText_ended]
  exact List.append_nil _

theorem verdict_nil :
    verdict room refusal [] failure = failure.elim (.ok ()) fun error => .error (.compile error) :=
  if_neg (Nat.not_lt_zero room)

theorem verdict_eq_output_iff :
    verdict room refusal text failure = .error (.output refusal) ↔ room < text.length := by
  unfold verdict
  split
  · next short => simp [short]
  · next fits => cases failure <;> simp [fits]

theorem verdict_fits (fits : line.length ≤ room) :
    verdict room refusal (line ++ text) failure =
      verdict (room - line.length) refusal text failure := by
  have same : room < (line ++ text).length ↔ room - line.length < text.length := by
    rw [List.length_append]
    omega
  simp only [verdict, same]

theorem verdict_short (short : room < line.length) :
    verdict room refusal (line ++ text) failure = .error (.output refusal) := by
  rw [verdict_eq_output_iff, List.length_append]
  omega

theorem Sink.after_nil : Sink.after bytes room refusal [] = ⟨bytes, some room, refusal⟩ := by
  simp [Sink.after]

theorem Sink.after_fits (fits : line.length ≤ room) :
    Sink.after bytes room refusal (line ++ text) =
      Sink.after (bytes ++ line) (room - line.length) refusal text := by
  have written : (line ++ text).take room = line ++ text.take (room - line.length) := by
    rw [List.take_append, List.take_of_length_le fits]
  rw [Sink.after, Sink.after, written, List.append_assoc, List.length_append, Nat.sub_add_eq]

theorem Sink.after_short (short : room < line.length) :
    Sink.after bytes room refusal (line ++ text) = Sink.after bytes room refusal line := by
  have full : room - (line ++ text).length = room - line.length := by
    rw [List.length_append]
    omega
  rw [Sink.after, Sink.after, List.take_append_of_le_length short.le, full]

theorem Sink.write_limited (text : String) :
    Sink.write text ⟨bytes, some room, refusal⟩ =
      if room < (Bytes.ofText text).length then
        .error refusal (Sink.after bytes room refusal (Bytes.ofText text))
      else .ok () (Sink.after bytes room refusal (Bytes.ofText text)) := by
  simp only [Sink.write, Sink.after]
  by_cases short : room < (Bytes.ofText text).length
  · rw [if_pos short, if_neg (Nat.not_le.mpr short)]
  · rw [if_neg short, if_pos (Nat.not_lt.mp short)]

end Texts

section Reached

/-- So many of the forms with these results are compiled: each of which all forms before it succeed and
have room for their lines. -/
def Reached (room : Nat) (results : List (Except CompileError (Option String))) (count : Nat) : Prop :=
  ∀ i, i < count ↔ i < results.length ∧ (∀ result ∈ results.take i, result.isOk) ∧
    (linesBefore (results.take i)).length ≤ room

variable {room count : Nat} {results : List (Except CompileError (Option String))}

theorem Reached.nil : Reached room [] 0 := by
  intro i
  simp

theorem Reached.failed (error : CompileError) : Reached room (.error error :: results) 1 := by
  intro i
  cases i with
  | zero => simp [linesBefore]
  | succ i => simp [Except.isOk, Except.toBool]

theorem Reached.ok {code : Option String} (fits : (lineOf code).length ≤ room)
    (others : Reached (room - (lineOf code).length) results count) :
    Reached room (.ok code :: results) (count + 1) := by
  intro i
  cases i with
  | zero => simp [linesBefore]
  | succ i =>
    rw [Nat.succ_lt_succ_iff, others i]
    simp only [List.length_cons, List.take_succ_cons, List.forall_mem_cons, linesBefore,
      List.length_append, Nat.succ_lt_succ_iff, Except.isOk, Except.toBool, true_and,
      Nat.le_sub_iff_add_le' fits]

theorem Reached.short {code : Option String} (short : room < (lineOf code).length) :
    Reached room (.ok code :: results) 1 := by
  intro i
  cases i with
  | zero => simp [linesBefore]
  | succ i =>
    simp only [List.take_succ_cons, linesBefore, List.length_append]
    omega

end Reached

namespace Compiler

variable (compiler : Compiler σ μ)

def results : List Datum → Session σ μ → List (Except CompileError (Option String))
  | [], _ => []
  | form :: forms, session =>
    outcome (compiler.compile form session) :: results forms (left (compiler.compile form session))

def compiled (forms : List Datum) (session : Session σ μ) : Session σ μ :=
  (compiler.serve (forms.map .compile) session).2

variable {compiler} {form : Datum} {forms : List Datum} {session middle : Session σ μ}
  {bytes : List UInt8} {room : Nat} {refusal : String}

theorem compiled_cons : compiler.compiled (form :: forms) session =
    compiler.compiled forms (left (compiler.compile form session)) :=
  rfl

theorem results_of_error {error : CompileError}
    (failed : compiler.compile form session = .error error middle) :
    compiler.results (form :: forms) session = .error error :: compiler.results forms middle := by
  rw [results, failed]
  rfl

theorem results_of_ok {code : Option String} (done : compiler.compile form session = .ok code middle) :
    compiler.results (form :: forms) session = .ok code :: compiler.results forms middle := by
  rw [results, done]
  rfl

theorem compileNext_of_error {error : CompileError} {sink : Sink}
    (failed : compiler.compile form session = .error error middle) :
    compiler.compileNext form ⟨session, sink⟩ = .error (.compile error) ⟨middle, sink⟩ := by
  simp only [compileNext, failed]

theorem compileNext_of_ok {code : Option String} {sink : Sink}
    (done : compiler.compile form session = .ok code middle) :
    compiler.compileNext form ⟨session, sink⟩ = .ok code ⟨middle, sink⟩ := by
  simp only [compileNext, done]

theorem writeOut_fits {text : String} (fits : (Bytes.ofText text).length ≤ room) :
    writeOut text (⟨session, ⟨bytes, some room, refusal⟩⟩ : Emission σ μ) =
      .ok () ⟨session, Sink.after bytes room refusal (Bytes.ofText text)⟩ := by
  simp only [writeOut, Sink.write_limited, if_neg (Nat.not_lt.mpr fits)]

theorem writeOut_short {text : String} (short : room < (Bytes.ofText text).length) :
    writeOut text (⟨session, ⟨bytes, some room, refusal⟩⟩ : Emission σ μ) =
      .error (.output refusal) ⟨session, Sink.after bytes room refusal (Bytes.ofText text)⟩ := by
  simp only [writeOut, Sink.write_limited, if_pos short]

theorem emit_cons_fits {code : Option String} (done : compiler.compile form session = .ok code middle)
    (fits : (lineOf code).length ≤ room) :
    compiler.emit (form :: forms) ⟨session, ⟨bytes, some room, refusal⟩⟩ =
      compiler.emit forms
        ⟨middle, ⟨bytes ++ lineOf code, some (room - (lineOf code).length), refusal⟩⟩ := by
  rw [emit, bind_of_ok (compileNext_of_ok done)]
  cases code with
  | none => simp [lineOf]
  | some fragment =>
    rw [lineOf_some] at fits ⊢
    refine (bind_of_ok (writeOut_fits fits)).trans ?_
    rw [Sink.after, List.take_of_length_le fits]

theorem emit_cons_short {code : Option String} (done : compiler.compile form session = .ok code middle)
    (short : room < (lineOf code).length) :
    compiler.emit (form :: forms) ⟨session, ⟨bytes, some room, refusal⟩⟩ =
      .error (.output refusal) ⟨middle, Sink.after bytes room refusal (lineOf code)⟩ := by
  rw [emit, bind_of_ok (compileNext_of_ok done)]
  cases code with
  | none => cases short
  | some fragment =>
    rw [lineOf_some] at short ⊢
    exact bind_of_error (writeOut_short short)

/-- The room that is left decides at each form whether the next one is compiled. -/
theorem emit_limited (forms : List Datum) (session : Session σ μ) (bytes : List UInt8) (room : Nat)
    (refusal : String) :
    ∃ count, Reached room (compiler.results forms session) count ∧
      compiler.emit forms ⟨session, ⟨bytes, some room, refusal⟩⟩ =
        settled (verdict room refusal (linesBefore (compiler.results forms session))
            (failure? (compiler.results forms session)))
          ⟨compiler.compiled (forms.take count) session,
            Sink.after bytes room refusal (linesBefore (compiler.results forms session))⟩ := by
  induction forms generalizing session bytes room with
  | nil =>
    refine ⟨0, .nil, ?_⟩
    rw [results, linesBefore, verdict_nil, Sink.after_nil]
    rfl
  | cons form forms ih =>
    cases done : compiler.compile form session with
    | error error middle =>
      rw [results_of_error done]
      refine ⟨1, .failed error, ?_⟩
      rw [emit, bind_of_error (compileNext_of_error done), linesBefore, verdict_nil, Sink.after_nil,
        List.take_succ_cons, compiled_cons, done]
      rfl
    | ok code middle =>
      rw [results_of_ok done, linesBefore, failure?]
      rcases Nat.lt_or_ge room (lineOf code).length with short | fits
      · refine ⟨1, .short short, ?_⟩
        rw [emit_cons_short done short, verdict_short short, Sink.after_short short, List.take_succ_cons,
          compiled_cons, done]
        rfl
      · rcases ih middle (bytes ++ lineOf code) (room - (lineOf code).length) with ⟨count, reached, rest⟩
        refine ⟨count + 1, reached.ok fits, ?_⟩
        rw [emit_cons_fits done fits, rest, verdict_fits fits, Sink.after_fits fits, List.take_succ_cons,
          compiled_cons, done]
        rfl

theorem length_results (forms : List Datum) (session : Session σ μ) :
    (compiler.results forms session).length = forms.length := by
  induction forms generalizing session with
  | nil => rfl
  | cons form forms ih => rw [results, List.length_cons, ih, List.length_cons]

def programText (compiler : Compiler σ μ) (results : List (Except CompileError (Option String))) :
    List UInt8 :=
  Bytes.ofText compiler.target.prologue ++ linesBefore results

/-- The prologue is written like a line in front of the others, but before any form is compiled. -/
theorem generate_settled (compiler : Compiler σ μ) (forms : List Datum) (session : Session σ μ)
    (bytes : List UInt8) (limit : Nat) (refusal : String) :
    let results := compiler.results forms session
    ∃ count, (∀ i, i < count ↔ i < forms.length ∧ (∀ result ∈ results.take i, result.isOk) ∧
        (compiler.programText (results.take i)).length ≤ limit) ∧
      compiler.generate forms ⟨session, ⟨bytes, some limit, refusal⟩⟩ =
        settled (verdict limit refusal (compiler.programText results) (failure? results))
          ⟨compiler.compiled (forms.take count) session,
            Sink.after bytes limit refusal (compiler.programText results)⟩ := by
  intro results
  rcases Nat.lt_or_ge limit (Bytes.ofText compiler.target.prologue).length with short | fits
  · refine ⟨0, ?_, ?_⟩
    · intro i
      rw [programText, List.length_append]
      omega
    · rw [generate, bind_of_error (writeOut_short short), programText, verdict_short short,
        Sink.after_short short]
      rfl
  · rcases emit_limited forms session (bytes ++ Bytes.ofText compiler.target.prologue)
      (limit - (Bytes.ofText compiler.target.prologue).length) refusal with ⟨count, reached, rest⟩
    refine ⟨count, ?_, ?_⟩
    · intro i
      rw [reached i, length_results, programText, List.length_append, Nat.le_sub_iff_add_le' fits]
    · rw [generate, bind_of_ok (writeOut_fits fits), Sink.after, List.take_of_length_le fits, rest,
        programText, verdict_fits fits, Sink.after_fits fits]

theorem results_transcribed (forms : List Datum) (session : Session σ μ)
    (earlier : List (HostEvent μ)) :
    compiler.transcribed.results forms (session.annotated earlier) = compiler.results forms session := by
  induction forms generalizing session earlier with
  | nil => rfl
  | cons form forms ih =>
    rw [results, results, compiler.transcribes_compile form session earlier]
    cases compiler.compile form session with
    | ok code middle => exact congrArg _ (ih middle _)
    | error error middle => exact congrArg _ (ih middle _)

theorem compiled_transcribed (compiler : Compiler σ μ) (forms : List Datum) (session : Session σ μ) :
    compiler.transcribed.compiled forms (session.annotated []) =
      (compiler.compiled forms session).annotated (compiler.transcript (forms.map .compile) session) :=
  congrArg Prod.snd (compiler.transcribed_serve (forms.map .compile) session)

/-- The text of a program is its prologue and the lines of the forms before the first one that fails.
What is written is as much of it as there is room for. Where there is not room for all of it, generation
fails because of that, and otherwise as the first form does that fails, if there is one. A form is
compiled just where all forms before it succeed and the text in front of it has room. With a transcript
generation goes the same way, and the calls of the host are those for compiling these forms. -/
theorem generate_limited (compiler : Compiler σ μ) (session : Session σ μ) (forms : List Datum)
    (limit : Nat) (refusal : String) :
    let results := compiler.results forms session
    let text := compiler.programText results
    let final := compiler.generate forms ⟨session, .limited limit refusal⟩
    (left final).sink.bytes = text.take (min limit text.length) ∧
    (outcome final = .error (.output refusal) ↔ limit < text.length) ∧
    outcome final = (if limit < text.length then .error (.output refusal)
      else (failure? results).elim (.ok ()) fun error => .error (.compile error)) ∧
    ∃ count, (∀ i, i < count ↔ i < forms.length ∧ (∀ result ∈ results.take i, result.isOk) ∧
        (compiler.programText (results.take i)).length ≤ limit) ∧
      (left final).toSession = compiler.compiled (forms.take count) session ∧
      compiler.transcribed.generate forms ⟨session.annotated [], .limited limit refusal⟩ =
        settled (outcome final)
          ⟨(left final).toSession.annotated (compiler.transcript ((forms.take count).map .compile) session),
            (left final).sink⟩ := by
  intro results text final
  rcases generate_settled compiler forms session [] limit refusal with ⟨count, reached, done⟩
  rcases generate_settled compiler.transcribed forms (session.annotated []) [] limit refusal with
    ⟨other, alike, noted⟩
  rw [results_transcribed] at alike noted
  -- the number of compiled forms depends on the results only
  have same : other = count := eq_of_forall_lt_iff fun i => (alike i).trans (reached i).symm
  subst same
  have known : final = settled (verdict limit refusal text (failure? results)) _ := done
  rw [known, outcome_settled, left_settled]
  refine ⟨?_, verdict_eq_output_iff, rfl, other, reached, rfl, ?_⟩
  · rw [Sink.after, List.nil_append]
    exact List.take_eq_take_min
  · rw [← compiled_transcribed]
    exact noted

end Compiler

end LispCompiler
