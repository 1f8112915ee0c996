import Mathlib
import LispCompiler.CommandLine.Run
import LispCompiler.Proofs.Compiler.Generation

namespace LispCompiler

theorem exists_forall₂_iff {R : α → β → Prop} {as : List α} :
    (∃ bs, List.Forall₂ R as bs) ↔ ∀ a ∈ as, ∃ b, R a b := by
  induction as with
  | nil => simp
  | cons a as ih =>
    rw [List.forall_mem_cons, ← ih]
    constructor
    · intro whole
      rcases whole with ⟨bs, whole⟩
      rcases List.forall₂_cons_left_iff.mp whole with ⟨b, others, first, rest, -⟩
      exact ⟨⟨b, first⟩, others, rest⟩
    · intro both
      rcases both with ⟨⟨b, first⟩, bs, others⟩
      exact ⟨b :: bs, .cons first others⟩

namespace Compiler

variable {compiler : Compiler σ μ} {forms : List Datum} {results : List (Option String)}
  {session after : Session σ μ}

theorem fragments_eq_mapM (compiler : Compiler σ μ) (forms : List Datum) :
    compiler.fragments forms = do return (← forms.mapM compiler.compile).reduceOption := by
  induction forms with
  | nil => rfl
  | cons form forms ih =>
    rw [fragments, ih, List.mapM_cons]
    simp only [bind_assoc, pure_bind]
    apply bind_congr
    intro code
    cases code with
    | none => rfl
    | some fragment => rfl

theorem compiled_of_mapM (done : forms.mapM compiler.compile session = .ok results after) :
    compiler.compiled forms session = after := by
  induction forms generalizing session results with
  | nil =>
    cases done
    rfl
  | cons form forms ih =>
    rw [List.mapM_cons] at done
    rcases bind_eq_ok_iff.mp done with ⟨code, middle, first, rest⟩
    rcases bind_eq_ok_iff.mp rest with ⟨others, last, mapped, whole⟩
    cases whole
    rw [compiled_cons, first]
    exact ih mapped

/-- Compiling runs no fragment, whatever was run before. -/
theorem runs_compiled (compiler : Compiler σ μ) (forms : List Datum)
    (session : Session (σ × List (HostEvent μ)) μ) (none : session.host.2.filterMap HostEvent.run? = []) :
    (compiler.transcribed.compiled forms session).host.2.filterMap HostEvent.run? = [] := by
  induction forms generalizing session with
  | nil => exact none
  | cons form forms ih =>
    have agree := agree_compile compiler.hostsAgree_quiet form session session ⟨⟨rfl, none⟩, rfl⟩
    exact ih _ agree.left.host.2

theorem transcribes_load (compiler : Compiler σ μ) (source : String) :
    Transcribes (compiler.load source) (compiler.transcribed.load source) := by
  cases read : Datum.readAll source with
  | ok forms =>
    rw [load_of_read read, load_of_read read]
    exact compiler.transcribes_loadForms forms
  | error error =>
    intro session earlier
    have none : calls (compiler.transcribed.load source) session = [] := transcript_unread read
    rw [load_of_unread read, load_of_unread read, none, List.append_nil]
    rfl

theorem transcribes_mapM (compiler : Compiler σ μ) (forms : List Datum) :
    Transcribes (forms.mapM compiler.compile) (forms.mapM compiler.transcribed.compile) := by
  induction forms with
  | nil => exact .ofPure _
  | cons form forms ih =>
    rw [List.mapM_cons, List.mapM_cons]
    exact (compiler.transcribes_compile form).bind fun _ => ih.bind fun _ => .ofPure _

theorem calls_mapM (done : forms.mapM compiler.compile session = .ok results after) :
    calls (forms.mapM compiler.transcribed.compile) session =
      compiler.transcript (forms.map .compile) session := by
  have noted := compiler.transcribes_mapM forms session []
  rw [done] at noted
  have reached := compiled_of_mapM noted
  exact (congrArg (·.host.2) reached).symm

end Compiler

namespace CommandLine

section Specification

def paths (options : Options) (file : String) : List String :=
  options.prelude.toList ++ [file]

variable (compiler : Compiler σ μ) (options : Options) (files : Files) (file : String)
  (session : Session σ μ)

inductive Preloads : List String → Session σ μ → List (HostEvent μ) → Prop
  | absent (none : options.prelude = none) : Preloads [] session []
  | loaded {path source : String} {fragments : List String} {after : Session σ μ}
      (given : options.prelude = some path) (read : files path = .ok source)
      (loads : compiler.load source session = .ok fragments after) :
      Preloads fragments after (compiler.transcript [.load source] session)

/-- All steps of a batch succeed: the bytes that they print, the session that they leave, and the calls
of the host. Only the prelude is run. -/
inductive Prints : List UInt8 → Session σ μ → List (HostEvent μ) → Prop
  | tokens {sources : List String} (stage : options.stage = .tokens)
      (read : List.Forall₂ (fun path source => files path = .ok source) (paths options file) sources) :
      Prints (((sources.flatMap Token.lex).map Token.describe).flatMap Compiler.ended) session []
  | ast {forms : List (List Datum)} (stage : options.stage = .ast)
      (read : List.Forall₂ (fun path forms => ∃ source, files path = .ok source ∧
        Datum.readAll source = .ok forms) (paths options file) forms) :
      Prints ((forms.flatten.map Datum.print).flatMap Compiler.ended) session []
  | code {source : String} {forms : List Datum} {fragments : List String}
      {results : List (Option String)} {middle after : Session σ μ} {calls : List (HostEvent μ)}
      (stage : options.stage = .code)
      (prelude : Preloads compiler options files session fragments middle calls)
      (read : files file = .ok source) (parsed : Datum.readAll source = .ok forms)
      (compiled : forms.mapM compiler.compile middle = .ok results after)
      (quiet : (compiler.transcript (forms.map .compile) middle).filterMap HostEvent.run? = []) :
      Prints (Bytes.ofText compiler.target.prologue ++ fragments.flatMap Compiler.ended ++
          results.reduceOption.flatMap Compiler.ended) after
        (calls ++ compiler.transcript (forms.map .compile) middle)

end Specification

section Steps

variable {compiler : Compiler σ μ} {options : Options} {files : Files} {path file source output : String}
  {session after : Session σ μ}

theorem lines_append (texts others : List String) :
    lines (texts ++ others) = lines texts ++ lines others := by
  rw [lines, List.map_append, String.join_append]
  rfl

theorem ofText_lines (texts : List String) :
    Bytes.ofText (lines texts) = texts.flatMap Compiler.ended := by
  induction texts with
  | nil => rfl
  | cons text texts ih =>
    rw [lines, List.map_cons, String.join_cons, Bytes.ofText_append, Compiler.ofText_ended]
    exact congrArg _ ih

theorem ofText_program (prologue : String) (fragments others : List String) :
    Bytes.ofText (prologue ++ lines fragments ++ lines others) =
      Bytes.ofText prologue ++ fragments.flatMap Compiler.ended ++ others.flatMap Compiler.ended := by
  rw [Bytes.ofText_append, Bytes.ofText_append, ofText_lines, ofText_lines]

theorem readSource_eq_ok_iff :
    readSource files path session = .ok source after ↔ files path = .ok source ∧ session = after := by
  rw [readSource]
  cases files path with
  | ok text => simp [pure, EStateM.pure]
  | error error => simp [throw, throwThe, MonadExceptOf.throw, EStateM.throw]

theorem readForms_eq_ok_iff {forms : List Datum} :
    readForms files path session = .ok forms after ↔
      (∃ source, files path = .ok source ∧ Datum.readAll source = .ok forms) ∧ session = after := by
  rw [readForms, bind_eq_ok_iff]
  constructor
  · intro steps
    rcases steps with ⟨source, middle, first, rest⟩
    rcases readSource_eq_ok_iff.mp first with ⟨read, rfl⟩
    cases parsed : Datum.readAll source with
    | ok data =>
      rw [parsed] at rest
      cases rest
      exact ⟨⟨source, read, parsed⟩, rfl⟩
    | error error =>
      rw [parsed] at rest
      cases rest
  · intro held
    rcases held with ⟨⟨source, read, parsed⟩, rfl⟩
    refine ⟨source, session, readSource_eq_ok_iff.mpr ⟨read, rfl⟩, ?_⟩
    rw [parsed]
    rfl

theorem labelled_eq_ok_iff {label : String} {action : Run σ μ α} {value : α} :
    labelled label action session = .ok value after ↔ action session = .ok value after := by
  rw [labelled]
  cases action session with
  | ok found later => simp
  | error error later => simp

theorem rendered_eq_ok_iff {step : Task σ μ α} {R : α → Prop} {render : α → String}
    (each : ∀ found, step session = .ok found after ↔ R found ∧ session = after) :
    (do return render (← step) : Task σ μ String) session = .ok output after ↔
      (∃ found, R found ∧ render found = output) ∧ session = after := by
  rw [bind_return_eq_ok_iff]
  simp only [each]
  constructor
  · intro steps
    rcases steps with ⟨found, ⟨held, same⟩, printed⟩
    exact ⟨⟨found, held, printed⟩, same⟩
  · intro held
    rcases held with ⟨⟨found, held, printed⟩, same⟩
    exact ⟨found, ⟨held, same⟩, printed⟩

theorem tokenText_eq_ok_iff :
    tokenText files path session = .ok output after ↔
      (∃ source, files path = .ok source ∧ lines ((Token.lex source).map Token.describe) = output) ∧
        session = after :=
  rendered_eq_ok_iff fun _ => readSource_eq_ok_iff

theorem formText_eq_ok_iff :
    formText files path session = .ok output after ↔
      (∃ forms, (∃ source, files path = .ok source ∧ Datum.readAll source = .ok forms) ∧
        lines (forms.map Datum.print) = output) ∧ session = after :=
  rendered_eq_ok_iff fun _ => readForms_eq_ok_iff

theorem loadText_eq_ok_iff :
    loadText compiler files path session = .ok output after ↔
      ∃ source fragments, files path = .ok source ∧
        compiler.load source session = .ok fragments after ∧ lines fragments = output := by
  rw [loadText, bind_eq_ok_iff]
  simp only [readSource_eq_ok_iff, bind_return_eq_ok_iff, labelled_eq_ok_iff]
  constructor
  · intro steps
    rcases steps with ⟨source, middle, ⟨read, rfl⟩, fragments, loads, printed⟩
    exact ⟨source, fragments, read, loads, printed⟩
  · intro held
    rcases held with ⟨source, fragments, read, loads, printed⟩
    exact ⟨source, session, ⟨read, rfl⟩, fragments, loads, printed⟩

theorem codeText_eq_ok_iff :
    codeText compiler files path session = .ok output after ↔
      ∃ source forms results, files path = .ok source ∧ Datum.readAll source = .ok forms ∧
        forms.mapM compiler.compile session = .ok results after ∧
        lines results.reduceOption = output := by
  rw [codeText, bind_eq_ok_iff]
  simp only [readForms_eq_ok_iff, Compiler.fragments_eq_mapM, bind_return_eq_ok_iff, labelled_eq_ok_iff]
  constructor
  · intro steps
    rcases steps with ⟨forms, middle, ⟨⟨source, read, parsed⟩, rfl⟩, _, ⟨results, compiled, rfl⟩, printed⟩
    exact ⟨source, forms, results, read, parsed, compiled, printed⟩
  · intro held
    rcases held with ⟨source, forms, results, read, parsed, compiled, printed⟩
    exact ⟨forms, session, ⟨⟨source, read, parsed⟩, rfl⟩, _, ⟨results, compiled, rfl⟩, printed⟩

theorem preludeText_eq_ok_iff {text : String → Task σ μ String} :
    preludeText options text session = .ok output after ↔
      (options.prelude = none ∧ "" = output ∧ session = after) ∨
        ∃ path, options.prelude = some path ∧ text path session = .ok output after := by
  rw [preludeText]
  cases options.prelude with
  | none => simp [pure, EStateM.pure]
  | some path => simp

theorem joined_eq_ok_iff {text : String → Task σ μ String} {R : String → β → Prop} {render : β → String}
    (each : ∀ path session output after, text path session = .ok output after ↔
      (∃ found, R path found ∧ render found = output) ∧ session = after) :
    (do
      let before ← preludeText options text
      return before ++ (← text file) : Task σ μ String) session = .ok output after ↔
      ∃ found, List.Forall₂ R (paths options file) found ∧ String.join (found.map render) = output ∧
        session = after := by
  rw [bind_eq_ok_iff]
  simp only [bind_return_eq_ok_iff, preludeText_eq_ok_iff, each, paths]
  constructor
  · intro steps
    rcases steps with ⟨_, _, ⟨given, rfl, rfl⟩ | ⟨path, given, ⟨first, used, rfl⟩, rfl⟩, _,
      ⟨⟨last, made, rfl⟩, rfl⟩, rfl⟩
    · refine ⟨[last], ?_, by simp, rfl⟩
      rw [given]
      exact .cons made .nil
    · refine ⟨[first, last], ?_, by simp, rfl⟩
      rw [given]
      exact .cons used (.cons made .nil)
  · intro held
    rcases held with ⟨found, made, rfl, rfl⟩
    cases given : options.prelude with
    | none =>
      rw [given] at made
      rcases List.forall₂_cons_left_iff.mp made with ⟨last, others, written, none, rfl⟩
      rw [List.forall₂_nil_left_iff.mp none]
      exact ⟨_, _, .inl ⟨rfl, rfl, rfl⟩, _, ⟨⟨last, written, rfl⟩, rfl⟩, by simp⟩
    | some path =>
      rw [given] at made
      rcases List.forall₂_cons_left_iff.mp made with ⟨first, behind, used, rest, rfl⟩
      rcases List.forall₂_cons_left_iff.mp rest with ⟨last, others, written, none, rfl⟩
      rw [List.forall₂_nil_left_iff.mp none]
      exact ⟨_, _, .inr ⟨path, rfl, ⟨first, used, rfl⟩, rfl⟩, _, ⟨⟨last, written, rfl⟩, rfl⟩, by simp⟩

theorem lines_flatMap (f : α → List String) (as : List α) :
    lines (as.flatMap f) = String.join (as.map fun a => lines (f a)) := by
  induction as with
  | nil => rfl
  | cons a as ih => rw [List.flatMap_cons, lines_append, ih, List.map_cons, String.join_cons]

theorem preloads_iff {fragments : List String} :
    (∃ calls, Preloads compiler options files session fragments after calls) ↔
      (options.prelude = none ∧ fragments = [] ∧ session = after) ∨
        ∃ path source, options.prelude = some path ∧ files path = .ok source ∧
          compiler.load source session = .ok fragments after := by
  constructor
  · intro held
    rcases held with ⟨calls, held⟩
    cases held with
    | absent none => exact .inl ⟨none, rfl, rfl⟩
    | loaded given read loads => exact .inr ⟨_, _, given, read, loads⟩
  · intro held
    rcases held with ⟨none, rfl, rfl⟩ | ⟨path, source, given, read, loads⟩
    · exact ⟨_, .absent none⟩
    · exact ⟨_, .loaded given read loads⟩

theorem batch_tokens (stage : options.stage = .tokens) :
    batch compiler options files file session = .ok output after ↔ ∃ sources,
      List.Forall₂ (fun path source => files path = .ok source) (paths options file) sources ∧
        lines ((sources.flatMap Token.lex).map Token.describe) = output ∧ session = after := by
  simp only [batch, stage, List.map_flatMap, lines_flatMap]
  exact joined_eq_ok_iff fun path session output after => tokenText_eq_ok_iff

theorem batch_ast (stage : options.stage = .ast) :
    batch compiler options files file session = .ok output after ↔ ∃ forms,
      List.Forall₂ (fun path forms => ∃ source, files path = .ok source ∧ Datum.readAll source = .ok forms)
          (paths options file) forms ∧
        lines (forms.flatten.map Datum.print) = output ∧ session = after := by
  simp only [batch, stage, List.map_flatten, ← List.flatMap_def, lines_flatMap]
  exact joined_eq_ok_iff fun path session output after => formText_eq_ok_iff

theorem batch_code (stage : options.stage = .code) :
    batch compiler options files file session = .ok output after ↔
      ∃ fragments middle source forms results,
        (∃ calls, Preloads compiler options files session fragments middle calls) ∧
        files file = .ok source ∧ Datum.readAll source = .ok forms ∧
        forms.mapM compiler.compile middle = .ok results after ∧
        compiler.target.prologue ++ lines fragments ++ lines results.reduceOption = output := by
  simp only [batch, stage]
  rw [bind_eq_ok_iff]
  simp only [bind_return_eq_ok_iff, preludeText_eq_ok_iff, loadText_eq_ok_iff, codeText_eq_ok_iff,
    preloads_iff]
  constructor
  · intro steps
    rcases steps with ⟨_, middle, ⟨none, rfl, rfl⟩ | ⟨path, given, loaded, fragments, found, loads, rfl⟩, _,
      ⟨source, forms, results, read, parsed, compiled, rfl⟩, rfl⟩
    · exact ⟨[], _, source, forms, results, .inl ⟨none, rfl, rfl⟩, read, parsed, compiled, rfl⟩
    · exact ⟨fragments, middle, source, forms, results, .inr ⟨path, loaded, given, found, loads⟩, read,
        parsed, compiled, rfl⟩
  · intro held
    rcases held with ⟨fragments, middle, source, forms, results,
      ⟨none, rfl, rfl⟩ | ⟨path, loaded, given, found, loads⟩, read, parsed, compiled, rfl⟩
    · exact ⟨_, _, .inl ⟨none, rfl, rfl⟩, _, ⟨source, forms, results, read, parsed, compiled, rfl⟩, rfl⟩
    · exact ⟨_, _, .inr ⟨path, given, loaded, fragments, found, loads, rfl⟩, _,
        ⟨source, forms, results, read, parsed, compiled, rfl⟩, rfl⟩

/-- A batch gives just what its steps print. -/
theorem batch_eq_ok_iff : batch compiler options files file session = .ok output after ↔
    ∃ calls, Prints compiler options files file session (Bytes.ofText output) after calls := by
  constructor
  · intro done
    cases stage : options.stage with
    | tokens =>
      rcases (batch_tokens stage).mp done with ⟨sources, read, rfl, rfl⟩
      rw [ofText_lines]
      exact ⟨_, .tokens stage read⟩
    | ast =>
      rcases (batch_ast stage).mp done with ⟨forms, read, rfl, rfl⟩
      rw [ofText_lines]
      exact ⟨_, .ast stage read⟩
    | code =>
      rcases (batch_code stage).mp done with
        ⟨fragments, middle, source, forms, results, ⟨calls, prelude⟩, read, parsed, compiled, rfl⟩
      rw [ofText_program]
      exact ⟨_, .code stage prelude read parsed compiled (compiler.runs_compiled forms _ rfl)⟩
  · intro held
    rcases held with ⟨calls, prints⟩
    generalize whole : Bytes.ofText output = bytes at prints
    cases prints with
    | tokens stage read =>
      rw [← ofText_lines] at whole
      exact (batch_tokens stage).mpr ⟨_, read, (Bytes.ofText_injective whole).symm, rfl⟩
    | ast stage read =>
      rw [← ofText_lines] at whole
      exact (batch_ast stage).mpr ⟨_, read, (Bytes.ofText_injective whole).symm, rfl⟩
    | code stage prelude read parsed compiled quiet =>
      rw [← ofText_program] at whole
      exact (batch_code stage).mpr
        ⟨_, _, _, _, _, ⟨_, prelude⟩, read, parsed, compiled, (Bytes.ofText_injective whole).symm⟩

end Steps

section Outcomes

variable {compiler : Compiler σ μ} {options : Options} {files : Files} {file : String}
  {session middle after : Session σ μ} {fragments : List String} {output : List UInt8}
  {calls : List (HostEvent μ)}

theorem Preloads.unique {other : Session σ μ} {others : List String} {noted : List (HostEvent μ)}
    (first : Preloads compiler options files session fragments middle calls)
    (second : Preloads compiler options files session others other noted) : middle = other := by
  cases first with
  | absent none =>
    cases second with
    | absent _ => rfl
    | loaded given => cases none.symm.trans given
  | loaded given read loads =>
    cases second with
    | absent none => cases none.symm.trans given
    | loaded again reread reloads =>
      cases given.symm.trans again
      cases read.symm.trans reread
      cases loads.symm.trans reloads
      rfl

theorem Preloads.parsed {path : String}
    (prelude : Preloads compiler options files session fragments middle calls)
    (given : options.prelude = some path) :
    ∃ forms source, files path = .ok source ∧ Datum.readAll source = .ok forms := by
  cases prelude with
  | absent none => cases none.symm.trans given
  | @loaded other source _ _ again read loads =>
    cases again.symm.trans given
    cases whole : Datum.readAll source with
    | ok forms => exact ⟨forms, source, read, whole⟩
    | error error =>
      rw [Compiler.load_of_unread whole] at loads
      cases loads

theorem Prints.parsed (prints : Prints compiler options files file session output after calls)
    (stage : options.stage ≠ .tokens) : ∀ path ∈ paths options file, ∃ forms source,
      files path = .ok source ∧ Datum.readAll source = .ok forms := by
  cases prints with
  | tokens other => exact absurd other stage
  | ast _ all => exact exists_forall₂_iff.mp ⟨_, all⟩
  | code _ prelude read whole =>
    intro path used
    rcases List.mem_append.mp used with before | last
    · exact prelude.parsed (Option.mem_toList.mp before)
    · rw [List.mem_singleton.mp last]
      exact ⟨_, _, read, whole⟩

theorem Prints.read (prints : Prints compiler options files file session output after calls) :
    ∀ path ∈ paths options file, ∃ source, files path = .ok source := by
  by_cases stage : options.stage = .tokens
  · cases prints with
    | tokens _ all => exact exists_forall₂_iff.mp ⟨_, all⟩
    | ast other | code other => cases stage.symm.trans other
  · intro path used
    rcases prints.parsed stage path used with ⟨forms, source, found, -⟩
    exact ⟨source, found⟩

theorem Preloads.transcribed (prelude : Preloads compiler options files session fragments middle calls) :
    ∃ noted, Preloads compiler.transcribed options files (session.annotated []) fragments
      (middle.annotated calls) noted := by
  cases prelude with
  | absent none => exact ⟨_, .absent none⟩
  | @loaded _ source _ _ given read loads =>
    have noted := compiler.transcribes_load source session []
    rw [loads] at noted
    exact ⟨_, .loaded given read noted⟩

/-- With a transcript the steps are the same, and their calls of the host are written down. -/
theorem Prints.transcribed (prints : Prints compiler options files file session output after calls) :
    ∃ noted, Prints compiler.transcribed options files file (session.annotated []) output
      (after.annotated calls) noted := by
  cases prints with
  | tokens stage all => exact ⟨_, .tokens stage all⟩
  | ast stage all => exact ⟨_, .ast stage all⟩
  | @code _ forms _ _ middle _ earlier stage prelude read parsed compiled =>
    have noted := compiler.transcribes_mapM forms middle earlier
    rw [compiled, Compiler.calls_mapM compiled] at noted
    rcases prelude.transcribed with ⟨_, before⟩
    exact ⟨_, .code stage before read parsed noted (compiler.transcribed.runs_compiled forms _ rfl)⟩

theorem Prints.exists_text (prints : Prints compiler options files file session output after calls) :
    ∃ text, output = Bytes.ofText text := by
  cases prints with
  | tokens => exact ⟨_, (ofText_lines _).symm⟩
  | ast => exact ⟨_, (ofText_lines _).symm⟩
  | code => exact ⟨_, (ofText_program _ _ _).symm⟩

theorem Prints.unique {other : List UInt8} {later : Session σ μ} {events : List (HostEvent μ)}
    (first : Prints compiler options files file session output after calls)
    (second : Prints compiler options files file session other later events) : output = other := by
  rcases first.exists_text with ⟨text, rfl⟩
  rcases second.exists_text with ⟨again, rfl⟩
  cases (batch_eq_ok_iff.mpr ⟨_, first⟩).symm.trans (batch_eq_ok_iff.mpr ⟨_, second⟩)
  rfl

end Outcomes

section Commands

def ending (room : Option Nat) (refusal : String) (output : List UInt8) : Outcome :=
  match room with
  | none => ⟨0, output, ""⟩
  | some limit =>
    if output.length ≤ limit then ⟨0, output, ""⟩
    else ⟨1, output.take limit, "error: " ++ refusal ++ "\n"⟩

variable {options : Options} {files : Files} {file text message refusal : String} {input : List UInt8}
  {room : Option Nat} {host : Host σ μ} {state : σ} {after : Session σ μ}

end Commands

end CommandLine

end LispCompiler
