import Mathlib.Data.List.ReduceOption
import LispCompiler.Compiler.Generate
import LispCompiler.Proofs.Compiler.Balance
import LispCompiler.Proofs.Compiler.Lockstep
import LispCompiler.Proofs.Compiler.Nesting
import LispCompiler.Proofs.Outcomes
import LispCompiler.Proofs.Target.OneLine
import LispCompiler.Proofs.Text.Lines

namespace LispCompiler

def Datum.Named (datum : Datum) : Prop :=
  datum.occurrences "" = 0

instance (datum : Datum) : Decidable datum.Named :=
  inferInstanceAs (Decidable (_ = 0))

namespace Datum.Named

variable {item : Datum} {items : List Datum}

theorem of_mem (named : (Datum.list items).Named) (member : item ∈ items) : item.Named :=
  Nat.le_zero.mp (named ▸ occurrences_le_of_mem "" member)

theorem expand {template expanded : Datum} (named : template.Named)
    (expands : Template.expand template = .ok expanded) : expanded.Named :=
  Nat.le_zero.mp (named ▸ Template.occurrences_expand (by decide) template expands)

end Datum.Named

namespace Emit

variable {post : α → Walk σ μ → Prop}

def Ensures (post : α → Walk σ μ → Prop) (x : Emit σ μ α) : Prop :=
  ∀ walk value after, x walk = .ok value after → post value after

namespace Ensures

theorem ofPure {value : α} (held : ∀ walk, post value walk) : Ensures post (pure value) := by
  rintro walk _ _ ⟨⟩
  exact held walk

theorem ofThrow (error : CompileError) : Ensures post (throw error) := by
  rintro walk _ _ ⟨⟩

theorem bind {x : Emit σ μ β} {f : β → Emit σ μ α} {first : β → Walk σ μ → Prop}
    (before : Ensures first x)
    (next : ∀ value walk, first value walk → ∀ result after, f value walk = .ok result after →
      post result after) :
    Ensures post (x >>= f) := by
  intro walk result after done
  rcases bind_eq_ok_iff.mp done with ⟨value, middle, given, rest⟩
  exact next value middle (before walk value middle given) result after rest

theorem ofLast {x : Emit σ μ β} {f : β → Emit σ μ α} (next : ∀ value, Ensures post (f value)) :
    Ensures post (x >>= f) :=
  have before : Ensures (fun _ _ => True) x := fun _ _ _ _ => trivial
  before.bind fun value walk _ => next value walk

theorem within {enter leave : Walk σ μ → Walk σ μ} {x : Emit σ μ α} (inside : Ensures post x)
    (kept : ∀ value walk, post value walk → post value (leave walk)) :
    Ensures post (Emit.within enter leave x) := by
  intro walk value after done
  unfold Emit.within at done
  split at done
  · next given =>
    cases done
    exact kept _ _ (inside _ _ _ given)
  · cases done

end Ensures

end Emit

def Written (code : Option String) : Prop :=
  ∀ fragment ∈ code, Filled fragment

theorem Written.ofNone : Written none :=
  nofun

theorem Written.ofSome {fragment : String} (filled : Filled fragment) : Written (some fragment) := by
  rintro _ ⟨⟩
  exact filled

theorem Written.getD {code : Option String} {other : String} (written : Written code)
    (filled : Filled other) : Filled (code.getD other) := by
  cases code with
  | none => exact filled
  | some fragment => exact written fragment rfl

namespace Compiler

section Own

variable (compiler : Compiler σ μ) (below : Below σ μ)

theorem ensures_lambda (params : Datum) (nodes : List Datum) :
    Emit.Ensures (fun fragment _ => Filled fragment) (compiler.lambda below params nodes) := by
  unfold lambda
  split
  · exact .ofThrow _
  · exact .ofLast fun _ => .ofPure fun _ => .lambda _

theorem ensures_application (head : Datum) (args : List Datum) :
    Emit.Ensures (fun code _ => Written code) (compiler.application below head args) :=
  .ofLast fun _ => .ofLast fun _ => .ofPure fun _ => .ofSome (.call _)

/-- All that is emitted has some text of its own, except for blocks and for what is compiled in the
place of the list. -/
theorem ensures_special {form : SpecialForm} (args : List Datum) (own : form ≠ .block)
    (inPlace : form ≠ .quasiquote) :
    Emit.Ensures (fun code _ => Written code) (compiler.special below form args) := by
  cases form with
  | apply =>
    simp only [special]
    split
    · exact .ofLast fun _ => .ofLast fun _ => .ofPure fun _ => .ofSome (.apply _)
    · exact .ofThrow _
  | block => exact absurd rfl own
  | define =>
    simp only [special]
    split
    · exact .ofLast fun _ => .ofLast fun _ => .ofLast fun _ => .ofPure fun _ => .ofSome (.define _)
    · exact .ofThrow _
  | defineMacro =>
    simp only [special]
    split
    · exact .ofLast fun _ => .ofLast fun _ => .ofPure fun _ => .ofNone
    · exact .ofThrow _
  | sequence => exact .ofLast fun _ => .ofPure fun _ => .ofSome (.sequence _)
  | function =>
    simp only [special]
    split
    · refine (compiler.ensures_lambda below _ _).bind ?_
      rintro fragment walk filled _ _ ⟨⟩
      exact .ofSome filled
    · exact .ofThrow _
  | conditional =>
    simp only [special]
    split
    · exact .ofLast fun _ => .ofLast fun _ => .ofLast fun _ => .ofPure fun _ => .ofSome .conditional
    · exact .ofThrow _
  | send =>
    simp only [special]
    split
    · refine .ofLast fun _ => .ofLast fun _ => ?_
      split
      · exact .ofPure fun _ => .ofSome (.send _)
      · exact .ofLast fun _ => .ofPure fun _ => .ofSome (.dynamicSend _)
    · exact .ofThrow _
  | quasiquote => exact absurd rfl inPlace
  | quote =>
    simp only [special]
    split
    · exact .ofLast fun _ => .ofPure fun _ => .ofSome (.literal _ _)
    · exact .ofThrow _
  | guard =>
    simp only [special]
    split
    · split
      · exact .ofThrow _
      · exact .ofLast fun _ => .ofLast fun _ => .ofPure fun _ => .ofSome (.guard _)
    · exact .ofThrow _

end Own

def collecting (compiler : Compiler σ μ) : Compiler (σ × List Datum) μ :=
  compiler.annotated fun expansion used => used ++ [expansion]

theorem collecting_grows (compiler : Compiler σ μ) (levels : Nat) (node : Datum)
    {walk after : Walk (σ × List Datum) μ} {code : Option String}
    (done : compiler.collecting.node levels node walk = .ok code after) :
    walk.host.2 <+: after.host.2 := by
  have keeps : ∀ (expansion : Datum) (used : List Datum), walk.host.2 <+: used →
      walk.host.2 <+: used ++ [expansion] :=
    fun expansion used grown => grown.trans (List.prefix_append used [expansion])
  have outcome := compiler.agree_noted_node keeps levels node walk.erased walk
    ⟨rfl, List.prefix_rfl⟩
  unfold collecting at done
  rw [done] at outcome
  generalize compiler.node levels node walk.erased = plain at outcome
  cases outcome with
  | ok value state => exact state.fit

/-- Code is written, or some expansion that was used by then has a symbol with an empty name. -/
def WrittenIfNamed (code : Option String) (walk : Walk (σ × List Datum) μ) : Prop :=
  (∀ expansion ∈ walk.host.2, expansion.Named) → Written code

section Collecting

variable {compiler : Compiler σ μ} {below : Below (σ × List Datum) μ}

theorem ensures_block (args : List Datum)
    (each : ∀ node ∈ args, Emit.Ensures WrittenIfNamed (below node)) :
    Emit.Ensures WrittenIfNamed (compiler.collecting.special below .block args) := by
  simp only [special]
  split
  · next function =>
    have inside : Emit.Ensures (fun fragment walk =>
        (∀ expansion ∈ walk.host.2, expansion.Named) → Filled fragment)
        (compiler.collecting.expr below function) := by
      refine (each function (List.mem_singleton_self _)).bind ?_
      rintro code walk written _ _ ⟨⟩ named
      exact (written named).getD (.nil _)
    refine inside.bind ?_
    rintro fragment walk filled _ _ ⟨⟩ named
    exact .ofSome (.block _ (filled named))
  · exact .ofThrow _

theorem ensures_quasiquote (args : List Datum) (named : ∀ arg ∈ args, arg.Named)
    (each : ∀ node : Datum, node.Named → Emit.Ensures WrittenIfNamed (below node)) :
    Emit.Ensures WrittenIfNamed (compiler.collecting.special below .quasiquote args) := by
  simp only [special]
  split
  · next template =>
    refine .ofLast fun _ => ?_
    split
    · next expanded expands =>
      have whole := named template (List.mem_singleton_self _)
      exact each expanded (whole.expand expands)
    · exact .ofThrow _
  · exact .ofThrow _

theorem ensures_macroCall (levels : Nat) (name : String) (expander : μ) (args : List Datum)
    (each : ∀ node : Datum, node.Named →
      Emit.Ensures WrittenIfNamed (compiler.collecting.node levels node)) :
    Emit.Ensures WrittenIfNamed
      (compiler.collecting.macroCall (compiler.collecting.node levels) name expander args) := by
  refine .ofLast fun _ => ?_
  split
  · exact .ofThrow _
  have recorded : Emit.Ensures (fun expansion walk => expansion ∈ walk.host.2)
      (Emit.ofHost (.macroExpansion name) (compiler.collecting.host.expand expander args) :
        Emit (σ × List Datum) μ Datum) := by
    intro walk expansion after done
    simp only [Emit.ofHost, collecting, annotated, Host.annotated, Host.annotate] at done
    cases expanded : compiler.host.expand expander args walk.host.1 with
    | ok value state =>
      rw [expanded] at done
      cases done
      simp
    | error error state =>
      rw [expanded] at done
      cases done
  refine recorded.bind ?_
  intro expansion walk used code after done named
  simp only [Emit.within] at done
  split at done
  · next given =>
    cases done
    -- the expansion is still in the record when its own code is done
    have kept := (compiler.collecting_grows levels expansion given).subset used
    exact each expansion (named expansion kept) _ _ _ given named
  · cases done

theorem ensures_list (levels : Nat) (items : List Datum) (named : (Datum.list items).Named)
    (each : ∀ node : Datum, node.Named →
      Emit.Ensures WrittenIfNamed (compiler.collecting.node levels node)) :
    Emit.Ensures WrittenIfNamed (compiler.collecting.list (compiler.collecting.node levels) items) := by
  cases items with
  | nil => exact .ofThrow _
  | cons head args =>
    have operands : ∀ arg ∈ args, arg.Named :=
      fun arg member => named.of_mem (List.mem_cons_of_mem head member)
    refine .ofLast fun walk => ?_
    cases Role.ofHead walk.macros head with
    | special form =>
      by_cases isBlock : form = .block
      · subst isBlock
        exact ensures_block args fun node member => each node (operands node member)
      by_cases isTemplate : form = .quasiquote
      · subst isTemplate
        exact ensures_quasiquote args operands each
      · intro walk code after done _
        exact compiler.collecting.ensures_special _ args isBlock isTemplate walk code after done
    | macroCall name expander => exact ensures_macroCall levels name expander args each
    | application =>
      intro walk code after done _
      exact compiler.collecting.ensures_application _ head args walk code after done

theorem filled_atomFragment (target : Target) {node : Datum} (isAtom : node.items? = none)
    (named : node.Named) : Filled (atomFragment target node) := by
  cases node with
  | list items => cases isAtom
  | symbol name =>
    simp only [atomFragment]
    split
    · exact .symbol target _
    · refine .ofName fun empty => ?_
      subst empty
      exact absurd named (by decide)
  | integer value => exact .integer value
  | float value => exact .float value
  | string text => exact .string target text
  | bool value => exact .bool value
  | nil => exact .nil target

theorem ensures_node (levels : Nat) (node : Datum) (named : node.Named) :
    Emit.Ensures WrittenIfNamed (compiler.collecting.node levels node) := by
  induction levels generalizing node with
  | zero => exact .ofThrow _
  | succ levels ih =>
    change Emit.Ensures WrittenIfNamed (compiler.collecting.step (compiler.collecting.node levels) node)
    by_cases isAtom : node.items? = none
    · rw [step_atom _ _ isAtom]
      exact .ofPure fun _ _ => .ofSome (filled_atomFragment _ isAtom named)
    cases node with
    | list items =>
      refine .ofLast fun walk => ?_
      split
      · exact .ofThrow _
      · exact (ensures_list levels items named ih).within fun _ _ written => written
    | _ => exact absurd rfl isAtom

end Collecting

theorem exists_code_of_compile {compiler : Compiler σ μ} {form : Datum} {session after : Session σ μ}
    {fragment : String} (done : compiler.compile form session = .ok (some fragment) after) :
    ∃ code : Code, code.render compiler.target = fragment := by
  have hosts : HostsAgree (.ofHosts Eq) compiler compiler :=
    ⟨fun _ _ => .refl _, fun _ _ => .refl _⟩
  have outcome := agree_compile hosts form session session ⟨rfl, rfl⟩
  rw [done] at outcome
  cases outcome with
  | ok value state =>
    cases value with
    | some same =>
      rcases same with ⟨code, rendered, -⟩
      exact ⟨code, rendered⟩

theorem oneLine_of_compile {compiler : Compiler σ μ} {form : Datum} {session after : Session σ μ}
    {fragment : String} (done : compiler.compile form session = .ok (some fragment) after) :
    OneLine fragment := by
  rcases exists_code_of_compile done with ⟨code, rfl⟩
  exact OneLine.render compiler.target code

theorem filled_of_collecting {compiler : Compiler σ μ} {form : Datum} {session : Session σ μ}
    {after : Session (σ × List Datum) μ} {fragment : String} (named : form.Named)
    (done : compiler.collecting.compile form (session.annotated []) = .ok (some fragment) after)
    (expansions : ∀ expansion ∈ after.host.2, expansion.Named) : Filled fragment := by
  unfold compile at done
  split at done
  · next code walk given =>
    cases code with
    | none => cases done
    | some code =>
      cases done
      have written := ensures_node maxLevels form named _ _ _ given expansions
      exact .topLevel _ (written code rfl)
  · cases done

theorem bytes_of_write {text : String} {sink after : Sink} (done : Sink.write text sink = .ok () after) :
    after.bytes = sink.bytes ++ Bytes.ofText text := by
  unfold Sink.write at done
  dsimp only at done
  split at done
  · cases done
    rfl
  · split at done
    · next fits =>
      cases done
      rw [List.take_of_length_le fits]
    · cases done

def ended (fragment : String) : List UInt8 :=
  Bytes.ofText fragment ++ [Bytes.newline]

theorem ofText_ended (fragment : String) : Bytes.ofText (fragment ++ "\n") = ended fragment :=
  Bytes.ofText_line fragment

theorem compile_of_compileNext {compiler : Compiler σ μ} {form : Datum} {state after : Emission σ μ}
    {code : Option String} (done : compiler.compileNext form state = .ok code after) :
    compiler.compile form state.toSession = .ok code after.toSession ∧ after.sink = state.sink := by
  unfold compileNext at done
  split at done
  · next compiled =>
    cases done
    exact ⟨compiled, rfl⟩
  · cases done

theorem bytes_of_writeOut {text : String} {state after : Emission σ μ}
    (done : writeOut text state = .ok () after) :
    after.toSession = state.toSession ∧ after.sink.bytes = state.sink.bytes ++ Bytes.ofText text := by
  unfold writeOut at done
  split at done
  · next written =>
    cases done
    exact ⟨rfl, bytes_of_write written⟩
  · cases done

theorem emit_cons_eq_ok {compiler : Compiler σ μ} {form : Datum} {forms : List Datum}
    {state after : Emission σ μ} (done : compiler.emit (form :: forms) state = .ok () after) :
    ∃ code middle, compiler.compile form state.toSession = .ok code middle.toSession ∧
      middle.sink.bytes = state.sink.bytes ++ code.toList.flatMap ended ∧
      compiler.emit forms middle = .ok () after := by
  rw [emit] at done
  rcases bind_eq_ok_iff.mp done with ⟨code, middle, compiledNext, rest⟩
  rcases compile_of_compileNext compiledNext with ⟨compiled, sink⟩
  cases code with
  | none => exact ⟨none, middle, compiled, by simp [sink], rest⟩
  | some fragment =>
    rcases bind_eq_ok_iff.mp rest with ⟨_, last, written, rest⟩
    rcases bytes_of_writeOut written with ⟨session, bytes⟩
    refine ⟨some fragment, last, session ▸ compiled, ?_, rest⟩
    rw [bytes, sink, ofText_ended]
    simp

theorem exists_results_of_emit {compiler : Compiler σ μ} (forms : List Datum) {state after : Emission σ μ}
    (done : compiler.emit forms state = .ok () after) :
    ∃ results, forms.mapM compiler.compile state.toSession = .ok results after.toSession ∧
      (∀ fragment ∈ results.reduceOption, OneLine fragment) ∧
      after.sink.bytes = state.sink.bytes ++ results.reduceOption.flatMap ended := by
  induction forms generalizing state with
  | nil =>
    cases done
    exact ⟨[], rfl, by simp, by simp⟩
  | cons form forms ih =>
    rcases emit_cons_eq_ok done with ⟨code, middle, compiled, bytes, rest⟩
    rcases ih rest with ⟨results, others, lines, written⟩
    refine ⟨code :: results, ?_, ?_, ?_⟩
    · rw [List.mapM_cons]
      exact bind_eq_ok_iff.mpr ⟨code, _, compiled, bind_eq_ok_iff.mpr ⟨results, _, others, rfl⟩⟩
    · cases code with
      | none => simpa using lines
      | some fragment =>
        rw [List.reduceOption_cons_of_some, List.forall_mem_cons]
        exact ⟨oneLine_of_compile compiled, lines⟩
    · rw [written, bytes]
      cases code with
      | none => simp
      | some fragment => simp

theorem unbroken_of_oneLine {fragment : String} (oneLine : OneLine fragment) :
    Bytes.newline ∉ Bytes.ofText fragment := by
  apply Bytes.newline_notMem_ofText
  intro broken
  exact absurd (OneLine.iff_forall.mp oneLine '\n' broken) (by decide)

theorem lines_flatMap_ended {fragments : List String} (each : ∀ fragment ∈ fragments, OneLine fragment) :
    Bytes.lines (fragments.flatMap ended) = fragments.map ended := by
  have unbroken : ∀ line ∈ fragments.map Bytes.ofText, Bytes.newline ∉ line :=
    List.forall_mem_map.mpr fun fragment member => unbroken_of_oneLine (each fragment member)
  calc Bytes.lines (fragments.flatMap ended)
      = Bytes.lines ((fragments.map Bytes.ofText).flatMap (· ++ [Bytes.newline])) := by
        rw [List.flatMap_map]
        rfl
    _ = (fragments.map Bytes.ofText).map (· ++ [Bytes.newline]) := Bytes.lines_flatMap unbroken
    _ = fragments.map ended := List.map_map

/-- The fragment of a form has no control characters. It has some character if the symbols of the form
and of the expansions that it used have names. What is written for a list of forms therefore has one
line for each form that gives a fragment. -/
theorem compile_oneLine (compiler : Compiler σ μ) (session : Session σ μ) :
    (∀ form fragment after, compiler.compile form session = .ok (some fragment) after →
      OneLine fragment) ∧
    (∀ form, ∃ used, compiler.collecting.compile form (session.annotated []) =
        annotatedResult used (compiler.compile form session) ∧
      ∀ fragment after, compiler.compile form session = .ok (some fragment) after →
        form.Named → (∀ expansion ∈ used, expansion.Named) → fragment ≠ "") ∧
    ∀ forms sink after, compiler.emit forms ⟨session, sink⟩ = .ok () after →
      ∃ results written, forms.mapM compiler.compile session = .ok results after.toSession ∧
        after.sink.bytes = sink.bytes ++ written ∧
        Bytes.lines written = results.reduceOption.map fun fragment =>
          Bytes.ofText fragment ++ [Bytes.newline] := by
  refine ⟨fun form fragment after done => oneLine_of_compile done, ?_, ?_⟩
  · intro form
    rcases compiler.exists_compile_annotated (fun expansion used => used ++ [expansion]) form session []
      with ⟨used, collected⟩
    refine ⟨used, collected, ?_⟩
    intro fragment after done named expansions
    rw [done] at collected
    exact filled_of_collecting named collected expansions
  · intro forms sink after done
    rcases exists_results_of_emit forms done with ⟨results, compiled, each, bytes⟩
    exact ⟨results, _, compiled, bytes, lines_flatMap_ended each⟩

theorem compile_oneLine_opening : OneLine "(\"\\n\")" ∧ "(\"\\n\")" ≠ "" ∧
    ∃ after, (mk .ruby (.constant (.string "\n"))).emit [.opening, .list [.symbol "open"]]
        ⟨.start (), .unlimited⟩ = .ok () after ∧
      Bytes.lines after.sink.bytes = ["(\"\\n\")", "\"\\n\""].map fun fragment =>
        Bytes.ofText fragment ++ [Bytes.newline] := by
  have whole := compile_oneLine (mk .ruby (.constant (.string "\n"))) (.start ())
  refine ⟨whole.1 .opening _ _ rfl, ?_, _, rfl, ?_⟩
  · rcases whole.2.1 .opening with ⟨used, run, filled⟩
    have record : [.string "\n"] = used := congrArg (·.host.2) (EStateM.Result.ok.inj run).2
    subst record
    exact filled _ _ rfl (by decide) (by decide)
  · rcases whole.2.2 [.opening, .list [.symbol "open"]] .unlimited _ rfl with
      ⟨results, written, compiled, bytes, lines⟩
    have fragments : [some "(\"\\n\")", some "\"\\n\""] = results := (EStateM.Result.ok.inj compiled).1
    subst fragments
    rw [bytes]
    exact lines

end Compiler

end LispCompiler
