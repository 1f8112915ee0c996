import Mathlib
import LispCompiler.Proofs.Compiler.Balance
import LispCompiler.Proofs.Compiler.Frames
import LispCompiler.Proofs.Compiler.Positions
import LispCompiler.Proofs.Target.Literals

namespace LispCompiler

section Joined

theorem append_cons_inj {mark : Char} {first second rest others : List Char} (absent : mark ∉ first)
    (missing : mark ∉ second) (same : first ++ mark :: rest = second ++ mark :: others) :
    first = second ∧ rest = others := by
  have lengths : first.length = second.length := calc
    first.length = (first ++ mark :: rest).idxOf mark := by
      rw [List.idxOf_append_of_notMem absent, List.idxOf_cons_self, Nat.add_zero]
    _ = (second ++ mark :: others).idxOf mark := by rw [same]
    _ = second.length := by
      rw [List.idxOf_append_of_notMem missing, List.idxOf_cons_self, Nat.add_zero]
  rcases List.append_inj same lengths with ⟨front, behind⟩
  exact ⟨front, (List.cons.inj behind).2⟩

theorem commaList_inj {name other : String} {names others : List String}
    (plain : ∀ part ∈ name :: names, ',' ∉ part.toList)
    (simple : ∀ part ∈ other :: others, ',' ∉ part.toList)
    (same : commaList (name :: names) = commaList (other :: others)) :
    name :: names = other :: others := by
  induction names generalizing name other others with
  | nil =>
    cases others with
    | nil => simpa [commaList] using same
    | cons second others =>
      refine absurd ?_ (plain name List.mem_cons_self)
      have whole : name.toList = (commaList [name]).toList := by simp [commaList]
      rw [whole, same, toList_commaList_cons_cons]
      simp
  | cons second names ih =>
    cases others with
    | nil =>
      refine absurd ?_ (simple other List.mem_cons_self)
      have whole : other.toList = (commaList [other]).toList := by simp [commaList]
      rw [whole, ← same, toList_commaList_cons_cons]
      simp
    | cons third others =>
      rw [List.forall_mem_cons] at plain simple
      have texts := congrArg String.toList same
      rw [toList_commaList_cons_cons, toList_commaList_cons_cons] at texts
      rcases append_cons_inj plain.1 simple.1 texts with ⟨front, behind⟩
      have rest := ih plain.2 simple.2 (String.toList_inj.mp (List.cons.inj behind).2)
      rw [String.toList_inj.mp front, rest]

theorem comma_notMem_of_isName {name : String} (isName : Identifier.IsName name) :
    ',' ∉ name.toList := by
  rcases isName with ⟨source, rfl⟩
  intro member
  exact absurd (ofName_simple source ',' member) (by decide)

/-- The names in front of a fragment are known from the text. -/
theorem JavaScript.topLevel_inj {names others : List String} {text : String}
    (named : ∀ name ∈ names, Identifier.IsName name) (others_named : ∀ name ∈ others, Identifier.IsName name)
    (same : topLevel names text = topLevel others text) : names = others := by
  have longer : ∀ (name : String) (names : List String), topLevel (name :: names) text ≠ text := by
    intro name names whole
    have lengths := congrArg String.length whole
    simp [topLevel, String.length_append] at lengths
  cases names with
  | nil =>
    cases others with
    | nil => rfl
    | cons other others => exact absurd same.symm (longer other others)
  | cons name names =>
    cases others with
    | nil => exact absurd same (longer name names)
    | cons other others =>
      have lists : commaList (name :: names) = commaList (other :: others) := by
        simpa [topLevel, String.append_left_inj, String.append_right_inj] using same
      exact commaList_inj (fun part member => comma_notMem_of_isName (named part member))
        (fun part member => comma_notMem_of_isName (others_named part member)) lists

end Joined

/-- Names in front of those that are bound change nothing just where these start with them. -/
theorem append_removeAll_eq {names bound : List String} (once : bound.Nodup) :
    names ++ bound.removeAll names = bound ↔ names <+: bound := by
  constructor
  · intro same
    exact ⟨_, same⟩
  · intro leads
    rcases leads with ⟨rest, rfl⟩
    have apart : ∀ name ∈ rest, name ∉ names := fun name member known =>
      (List.nodup_append.mp once).2.2 name known name member rfl
    have none : names.removeAll names = [] := List.filter_eq_nil_iff.mpr (by simp)
    have all : rest.removeAll names = rest := List.filter_eq_self.mpr (by simpa using apart)
    rw [List.removeAll, List.filter_append, ← List.removeAll, ← List.removeAll, none, all,
      List.nil_append]

/-- More names change the text in front of a fragment, unless they come first anyway or the target
declares nothing. -/
theorem Target.topLevel_eq_iff {target : Target} {names bound : List String} {text : String}
    (once : bound.Nodup) (named : ∀ name ∈ names, Identifier.IsName name)
    (boundNamed : ∀ name ∈ bound, Identifier.IsName name) :
    target.topLevel (names ++ bound.removeAll names) text = target.topLevel bound text ↔
      target = .ruby ∨ names <+: bound := by
  cases target with
  | ruby => exact iff_of_true rfl (.inl rfl)
  | javascript =>
    have all : ∀ name ∈ names ++ bound.removeAll names, Identifier.IsName name := by
      rw [List.forall_mem_append]
      exact ⟨named, fun name member => boundNamed name (List.mem_filter.mp member).1⟩
    rw [← append_removeAll_eq once]
    constructor
    · intro same
      exact .inr (JavaScript.topLevel_inj all boundNamed same)
    · intro held
      rcases held with ruby | same
      · cases ruby
      · rw [same]

namespace Datum

def sequence (nodes : List Datum) : Datum :=
  list (symbol SpecialForm.sequence.name :: nodes)

def macroDefinition (name : String) (function : Datum) : Datum :=
  list [symbol SpecialForm.defineMacro.name, symbol name, function]

end Datum

namespace Compiler

open Emit (Binds)

variable {compiler : Compiler σ μ} {expansions nesting levels : Nat} {session : Session σ μ}

theorem hostsAgree_refl (compiler : Compiler σ μ) : HostsAgree (.ofHosts Eq) compiler compiler where
  evalMacro _ _ := .refl _
  expand _ _ := .refl _

theorem isName_of_node {node : Datum} {code : Option String} {before after : Walk σ μ}
    (named : ∀ frame ∈ before.frames, ∀ name ∈ frame, Identifier.IsName name)
    (done : compiler.node levels node before = .ok code after) :
    ∀ name ∈ after.locals, Identifier.IsName name := by
  have agree := agree_node compiler.hostsAgree_refl levels node before before
    ⟨⟨rfl, rfl⟩, rfl, named, rfl, rfl⟩
  rw [done] at agree
  cases agree with
  | ok _ alike => exact alike.locals_named

/-- The definition binds what the macro's function does. -/
theorem binds_macroDefinition {name : String} {function : Datum} {names : List String}
    {code : Option String} {middle : Session σ μ} {expander : μ} {host : σ} (room : nesting < maxNesting)
    (compiles : Binds expansions (nesting + 1) (compiler.node levels function) session names
      (.ok code middle))
    (answers : compiler.host.evalMacro name (code.getD compiler.target.nil) middle.host =
      .ok expander host) :
    Binds expansions nesting (compiler.node (levels + 1) (.macroDefinition name function)) session names
      (.ok none ⟨host, middle.macros.define name expander⟩) := by
  apply binds_list room
  rw [listPlan_special]
  have defined : Binds expansions (nesting + 1)
      (compiler.defineMacro (compiler.node levels) name function) session (names ++ ([] ++ []))
      (.ok () ⟨host, middle.macros.define name expander⟩) :=
    (compiles.andThen _).bind ((Binds.ofHost_ok answers).bind (.ofDefine name expander))
  simp only [List.append_nil] at defined
  exact defined.andThen _

def sequenced (target : Target) :
    EStateM.Result ε σ (List String) → EStateM.Result ε σ (Option String)
  | .ok fragments state => .ok (some (target.sequence fragments)) state
  | .error error state => .error error state

theorem binds_sequence {nodes : List Datum} {names : List String}
    {result : EStateM.Result CompileError (Session σ μ) (List String)} (room : nesting < maxNesting)
    (inside : Binds expansions (nesting + 1) (body (compiler.node levels) nodes) session names result) :
    Binds expansions nesting (compiler.node (levels + 1) (.sequence nodes)) session names
      (sequenced compiler.target result) := by
  apply binds_list room
  rw [listPlan_special]
  change Binds _ _ (compiler.emitOperands (compiler.node levels) (nodes.map (.statement, ·)) >>= _) _ _ _
  rw [emitOperands_statements]
  cases result with
  | ok fragments after => exact inside.andThen _
  | error error after => exact inside.bind_error

/-- Nodes behind one that emits nothing give the fragments that they would give alone. -/
theorem binds_body_cons {below : Below σ μ} {node : Datum} {nodes : List Datum}
    {names others : List String} {middle : Session σ μ}
    {result : EStateM.Result CompileError (Session σ μ) (List String)}
    (first : Binds expansions nesting (below node) session names (.ok none middle))
    (rest : Binds expansions nesting (body below nodes) middle others result) :
    Binds expansions nesting (body below (node :: nodes)) session (names ++ others) result := by
  cases result with
  | ok fragments after => exact first.bind (rest.andThen _)
  | error error after => exact first.bind rest.bind_error

theorem exists_binds_body (nodes : List Datum) (session : Session σ μ) :
    ∃ names result, Binds expansions nesting (body (compiler.node levels) nodes) session names result := by
  have transparent : Emit.Transparent expansions nesting
      (compiler.emitOperands (compiler.node levels) (nodes.map (.statement, ·))) :=
    transparent_emitOperands _ (transparent_node levels expansions nesting)
  rw [emitOperands_statements] at transparent
  exact transparent session

theorem binds_of_node {node : Datum} {code : Option String} {walk : Walk σ μ}
    (compiles : compiler.node levels node ⟨session, [[]], expansions, nesting⟩ = .ok code walk) :
    ∃ names, walk.locals = names.eraseDups ∧
      Binds expansions nesting (compiler.node levels node) session names (.ok code walk.toSession) := by
  rcases transparent_node levels expansions nesting node session with ⟨names, result, binds⟩
  have same := (binds [] []).symm.trans compiles
  rw [nil_addNames] at same
  cases result with
  | ok value after =>
    cases same
    exact ⟨names, rfl, binds⟩
  | error error after => cases same

/-- Where a macro's function is compiled, two lists deep, and the host accepts the macro, the sequence
fails or succeeds as it does without the definition and with the macro in the table. The code is the same
up to the names that are declared in front of it: those that the function binds come first. So the
fragments are the same if and only if the target declares nothing, or the rest of the sequence starts
with binding just these names. -/
theorem compile_macroDefinition (compiler : Compiler σ μ) (session : Session σ μ) (name : String)
    (function : Datum) (nodes : List Datum) (code : Option String) (walk : Walk σ μ) (expander : μ)
    (host : σ)
    (compiles : compiler.node (maxLevels - 2) function ⟨session, [[]], 0, 2⟩ = .ok code walk)
    (answers : compiler.host.evalMacro name (code.getD compiler.target.nil) walk.host =
      .ok expander host) :
    (∃ error after,
      compiler.compile (.sequence (.macroDefinition name function :: nodes)) session =
        .error error after ∧
      compiler.compile (.sequence nodes) ⟨host, walk.macros.define name expander⟩ =
        .error error after) ∨
    ∃ text bound after,
      compiler.node maxLevels (.sequence nodes) (Walk.start ⟨host, walk.macros.define name expander⟩) =
        .ok (some text) ⟨after, [bound], 0, 0⟩ ∧
      compiler.compile (.sequence (.macroDefinition name function :: nodes)) session =
        .ok (some (compiler.target.topLevel (walk.locals ++ bound.removeAll walk.locals) text)) after ∧
      compiler.compile (.sequence nodes) ⟨host, walk.macros.define name expander⟩ =
        .ok (some (compiler.target.topLevel bound text)) after ∧
      (compiler.target.topLevel (walk.locals ++ bound.removeAll walk.locals) text =
          compiler.target.topLevel bound text ↔
        compiler.target = .ruby ∨ walk.locals <+: bound) := by
  -- the function binds `names` in the frame of the sequence, and the rest adds `others` behind them
  rcases binds_of_node compiles with ⟨names, locals, binds⟩
  have defined : Binds 0 1 (compiler.node (maxLevels - 1) (.macroDefinition name function)) session names
      (.ok none ⟨host, walk.macros.define name expander⟩) :=
    binds_macroDefinition (by decide) binds answers
  have behind : ∃ others result, Binds 0 1 (body (compiler.node (maxLevels - 1)) nodes)
      ⟨host, walk.macros.define name expander⟩ others result := exists_binds_body nodes _
  rcases behind with ⟨others, result, rest⟩
  have plain : Binds 0 0 (compiler.node maxLevels (.sequence nodes)) _ others
      (sequenced compiler.target result) := binds_sequence (by decide) rest
  have nested : Binds 0 0
      (compiler.node maxLevels (.sequence (.macroDefinition name function :: nodes))) session
      (names ++ others) (sequenced compiler.target result) :=
    binds_sequence (by decide) (binds_body_cons defined rest)
  cases result with
  | error error after =>
    exact .inl ⟨error, after, compile_of_binds_error nested, compile_of_binds_error plain⟩
  | ok fragments after =>
    have walked := plain [] []
    rw [nil_addNames] at walked
    refine .inr ⟨compiler.target.sequence fragments, others.eraseDups, after, walked, ?_, ?_, ?_⟩
    · have all : (names ++ others).eraseDups = walk.locals ++ others.eraseDups.removeAll walk.locals := by
        rw [← nil_addNames, addNames_append, nil_addNames, addNames_eq, ← locals]
      rw [← all]
      exact compile_of_binds nested
    · exact compile_of_binds plain
    · apply Target.topLevel_eq_iff (nodup_eraseDups others)
      · exact isName_of_node (by simp) compiles
      · exact isName_of_node (by simp) walked

def sevens : Compiler Unit Unit :=
  ⟨.javascript, .constant (.integer 7)⟩

/-- `(do (def a 1) (fn () a))` -/
def bindingFunction : Datum :=
  .sequence [.list [.symbol "def", .symbol "a", .integer 1], .list [.symbol "fn", .list [], .symbol "a"]]

def rebindingNodes : List Datum :=
  [.list [.symbol "def", .symbol "a", .integer 2], .list [.symbol "m"]]

/-- The name is declared here anyway. -/
theorem compile_macroDefinition_rebinding :
    sevens.node (maxLevels - 2) bindingFunction ⟨.start (), [[]], 0, 2⟩ =
      .ok (some "((a = 1), (() => (a)))") ⟨.start (), [["a"]], 0, 2⟩ ∧
    sevens.compile (.sequence (.macroDefinition "m" bindingFunction :: rebindingNodes)) (.start ()) =
      .ok (some "var a; ((a = 2), 7)") ⟨(), .define .empty "m" ()⟩ ∧
    sevens.compile (.sequence rebindingNodes) ⟨(), .define .empty "m" ()⟩ =
      .ok (some "var a; ((a = 2), 7)") ⟨(), .define .empty "m" ()⟩ := by
  have compiles : sevens.node (maxLevels - 2) bindingFunction ⟨.start (), [[]], 0, 2⟩ =
      .ok (some "((a = 1), (() => (a)))") ⟨.start (), [["a"]], 0, 2⟩ := by
    rfl
  have walked : sevens.node maxLevels (.sequence rebindingNodes)
      (Walk.start ⟨(), .define .empty "m" ()⟩) =
      .ok (some "((a = 2), 7)") ⟨⟨(), .define .empty "m" ()⟩, [["a"]], 0, 0⟩ := by
    rfl
  have alone : sevens.compile (.sequence rebindingNodes) ⟨(), .define .empty "m" ()⟩ =
      .ok (some "var a; ((a = 2), 7)") ⟨(), .define .empty "m" ()⟩ := by
    rfl
  refine ⟨compiles, ?_⟩
  rcases compile_macroDefinition sevens (.start ()) "m" bindingFunction rebindingNodes _ _ () () compiles rfl
    with ⟨error, after, -, failed⟩ | ⟨text, bound, after, node, nested, plain, same⟩
  · cases alone.symm.trans failed
  · cases walked.symm.trans node
    rw [same.mpr (.inr ⟨[], rfl⟩)] at nested
    exact ⟨nested, alone⟩

/-- The name that the macro's function binds is declared, though nothing in the fragment assigns it. -/
theorem compile_macroDefinition_leftover :
    sevens.compile (.sequence [.macroDefinition "m" bindingFunction, .list [.symbol "m"]]) (.start ()) =
      .ok (some "var a; (7)") ⟨(), .define .empty "m" ()⟩ ∧
    sevens.compile (.sequence [.list [.symbol "m"]]) ⟨(), .define .empty "m" ()⟩ =
      .ok (some "(7)") ⟨(), .define .empty "m" ()⟩ := by
  constructor <;> rfl

end Compiler

end LispCompiler
