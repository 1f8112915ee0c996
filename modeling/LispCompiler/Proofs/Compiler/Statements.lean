import LispCompiler.Proofs.Compiler.Lines
import LispCompiler.Proofs.Target.Statements

namespace LispCompiler

open JavaScript (SeparateLines statements)

theorem Code.renderAll_eq_map (target : Target) (codes : List Code) :
    renderAll target codes = codes.map (render target) := by
  induction codes with
  | nil => rfl
  | cons code codes ih => rw [renderAll, ih, List.map_cons]

theorem Code.isChain_renderAll_iff (codes : List Code) :
    (renderAll .javascript codes).IsChain SeparateLines ↔ ∀ code ∈ codes.tail, code.opens = false := by
  rw [renderAll_eq_map]
  have unended : ∀ line ∈ codes.map (render .javascript), JavaScript.endsStatement line = false :=
    List.forall_mem_map.mpr fun code _ => code.endsStatement_render
  rw [JavaScript.isChain_iff_of_unended unended, ← List.map_tail, List.forall_mem_map]
  simp only [continuesLine_render]

namespace Compiler

/-- The fragments of a run are renderings of code. -/
theorem exists_codes_of_mapM {compiler : Compiler σ μ} {forms : List Datum}
    {results : List (Option String)} {session after : Session σ μ}
    (done : forms.mapM compiler.compile session = .ok results after) :
    ∃ codes, Code.renderAll compiler.target codes = results.reduceOption := by
  induction forms generalizing results session with
  | nil =>
    cases done
    exact ⟨[], rfl⟩
  | cons form forms ih =>
    rw [List.mapM_cons] at done
    rcases bind_eq_ok_iff.mp done with ⟨result, middle, compiled, rest⟩
    rcases bind_eq_ok_iff.mp rest with ⟨others, last, mapped, whole⟩
    cases whole
    rcases ih mapped with ⟨codes, rendered⟩
    cases result with
    | none => exact ⟨codes, by rw [rendered, List.reduceOption_cons_of_none]⟩
    | some fragment =>
      rcases exists_code_of_compile compiled with ⟨code, first⟩
      exact ⟨code :: codes, by rw [Code.renderAll, first, rendered, List.reduceOption_cons_of_some]⟩

/-- A JavaScript program is its prologue and then the fragments of its forms, one on a line. These
lines are separate statements just where no code but the first begins with a bracket or a minus sign,
because no line ends with a semicolon. -/
theorem generate_statements_iff (host : Host σ μ) (forms : List Datum) {state after : Emission σ μ}
    (done : (mk .javascript host).generate forms state = .ok () after) :
    ∃ results codes written,
      forms.mapM (mk .javascript host).compile state.toSession = .ok results after.toSession ∧
      results.reduceOption = Code.renderAll .javascript codes ∧
      after.sink.bytes = state.sink.bytes ++ Bytes.ofText JavaScript.prologue ++ written ∧
      Bytes.lines written = results.reduceOption.map (fun fragment =>
        Bytes.ofText fragment ++ [Bytes.newline]) ∧
      (results.reduceOption.IsChain SeparateLines ↔ ∀ code ∈ codes.tail, code.opens = false) ∧
      (statements results.reduceOption = results.reduceOption ↔
        ∀ code ∈ codes.tail, code.opens = false) := by
  rcases bind_eq_ok_iff.mp done with ⟨_, middle, begun, rest⟩
  rcases bytes_of_writeOut begun with ⟨session, prologue⟩
  rcases exists_results_of_emit forms rest with ⟨results, compiled, each, bytes⟩
  rw [session] at compiled
  rcases exists_codes_of_mapM compiled with ⟨codes, rendered⟩
  have separate := Code.isChain_renderAll_iff codes
  rw [rendered] at separate
  refine ⟨results, codes, results.reduceOption.flatMap ended, compiled, rendered.symm, ?_,
    lines_flatMap_ended each, separate, ?_⟩
  · rw [bytes, prologue]
    rfl
  · rw [JavaScript.statements_eq_iff]
    exact separate

/-- `(print x) (def y -1) x` -/
def separated : List Datum :=
  [.list [.symbol "print", .symbol "x"], .list [.symbol "def", .symbol "y", .integer (-1)], .symbol "x"]

theorem generate_statements_separated :
    ∃ after, (mk .javascript .detached).generate separated ⟨.start (), .unlimited⟩ = .ok () after ∧
      statements ["print(x)", "var y; (y = -1)", "x"] = ["print(x)", "var y; (y = -1)", "x"] ∧
      ∃ codes, Code.renderAll .javascript codes = ["print(x)", "var y; (y = -1)", "x"] ∧
        ∀ code ∈ codes.tail, code.opens = false := by
  have done : (mk .javascript .detached).generate separated ⟨.start (), .unlimited⟩ = .ok () _ := rfl
  refine ⟨_, done, ?_⟩
  rcases generate_statements_iff .detached separated done with
    ⟨results, codes, written, compiled, rendered, -, -, chained, read⟩
  have fragments : [some "print(x)", some "var y; (y = -1)", some "x"] = results :=
    (EStateM.Result.ok.inj compiled).1
  subst fragments
  have apart := chained.mp (by decide)
  exact ⟨read.mpr apart, codes, rendered.symm, apart⟩

/-- The conditional is written behind a call without a semicolon between them, and is read as the
arguments of another call. -/
theorem generate_statements_conditional :
    ∃ after, (mk .javascript .detached).generate
        [.list [.symbol "print", .symbol "x"],
          .list [.symbol "if", .symbol "a", .symbol "b", .symbol "c"]] ⟨.start (), .unlimited⟩ =
          .ok () after ∧
      after.sink.bytes = Bytes.ofText JavaScript.prologue ++ Bytes.ofText "print(x)\n" ++
        Bytes.ofText "(a ? b : c)\n" ∧
      ¬SeparateLines "print(x)" "(a ? b : c)" ∧
      statements ["print(x)", "(a ? b : c)"] = ["print(x)\n(a ? b : c)"] :=
  ⟨_, rfl, rfl, by decide, rfl⟩

end Compiler

end LispCompiler
