import LispCompiler.Proofs.Compiler.Positions
import LispCompiler.Proofs.Compiler.Sessions

namespace LispCompiler

namespace MacroTable

variable {first second : MacroTable μ}

def AgreeElsewhere (first second : MacroTable μ) : Prop :=
  ∀ name, (∀ form : SpecialForm, name ≠ form.name) → first.get? name = second.get? name

theorem sameMacros_iff : first.SameMacros second ↔ first.AgreeElsewhere second := by
  have ordinary_iff : ∀ name, SpecialForm.ofName? name = none ↔ ∀ form : SpecialForm, name ≠ form.name := by
    intro name
    rw [Option.eq_none_iff_forall_ne_some]
    exact forall_congr' fun form => not_congr SpecialForm.ofName?_eq_some
  exact forall_congr' fun name => imp_congr_left (ordinary_iff name)

theorem AgreeElsewhere.define (agree : first.AgreeElsewhere second) (form : SpecialForm) (expander : μ) :
    (first.define form.name expander).AgreeElsewhere second := by
  intro name ordinary
  have others : (first.define form.name expander).get? name = first.get? name := by
    simp [get?, MacroTable.define, Std.TreeMap.getElem?_insert, (ordinary form).symm]
  exact others.trans (agree name ordinary)

end MacroTable

def Pairing.specialNames : Pairing σ σ μ where
  hosts := Eq
  tables := MacroTable.SameMacros
  same related := related
  define name expander related := related.define name expander

namespace Compiler

theorem sessionsAgree_specialNames (compiler : Compiler σ μ) :
    SessionsAgree .specialNames compiler compiler where
  evalMacro _ _ := .refl _
  expand _ _ := .refl _
  run _ := .refl _
  runText _ := .refl _

/-- Special forms cannot be overridden: a session in which macros were given their names replies like
one in which they were not, with the same code, the same parentheses around operands and the same
errors, by the same calls of the host. The macros that both end with agree again on all other names,
whichever names the requests themselves give to macros. -/
theorem serve_specialNames (compiler : Compiler σ μ) (host : σ) {first second : MacroTable μ}
    (agree : first.AgreeElsewhere second) (requests : List Request) :
    (compiler.serve requests ⟨host, first⟩).1 = (compiler.serve requests ⟨host, second⟩).1 ∧
      compiler.transcript requests ⟨host, first⟩ = compiler.transcript requests ⟨host, second⟩ ∧
      (compiler.serve requests ⟨host, first⟩).2.host = (compiler.serve requests ⟨host, second⟩).2.host ∧
      (compiler.serve requests ⟨host, first⟩).2.macros.AgreeElsewhere
        (compiler.serve requests ⟨host, second⟩).2.macros := by
  let view : View compiler.transcribed.target compiler.transcribed.target := .whole compiler.target
  have every : view.reply = id := funext (View.whole_reply compiler.target)
  have admits : ∀ request ∈ requests, view.Admits request := fun _ _ _ _ _ => rfl
  have begun : Session.Alike .specialNames (Session.annotated ([] : List (HostEvent μ)) ⟨host, first⟩)
      (Session.annotated [] ⟨host, second⟩) :=
    ⟨rfl, MacroTable.sameMacros_iff.mpr agree⟩
  -- the calls are part of the transcribing host's state, so they are compared along with it
  have served := agree_serve view compiler.transcribed.sessionsAgree_specialNames admits begun
  rw [every, List.map_id, List.map_id, transcribed_serve, transcribed_serve] at served
  have states := Prod.ext_iff.mp served.2.host
  exact ⟨served.1, states.2, states.1, MacroTable.sameMacros_iff.mp served.2.macros⟩

def expandingToNil : Compiler Nat Nat where
  target := .ruby
  host := .counting (fun _ calls => .ok calls) (fun _ _ _ => .ok .nil) fun _ => .ok ()

/-- One session has macros that are named like special forms, the other has none, and both are asked to
define such a macro too. -/
theorem serve_specialNames_expandingToNil :
    let overridden := (MacroTable.empty.define "if" 7).define "do" 8
    let choice : Datum := .list [.symbol "if", .symbol "a", .symbol "b", .symbol "c"]
    let requests : List Request :=
      [.compile (.list [choice, .list [.symbol "do", .symbol "m"]]),
        .compile (.list [.symbol "defmacro", .symbol "if", .nil]),
        .compile (.list [.symbol "defmacro", .symbol "m", choice]),
        .compile (.list [.symbol "do", .list [.symbol "m"], choice, .list [.symbol "fn"]]),
        .emit [.list [.symbol "do", .list [.symbol "m"], choice]] .unlimited]
    overridden.AgreeElsewhere .empty ∧
      (expandingToNil.serve requests ⟨0, overridden⟩).1 =
        (expandingToNil.serve requests (.start 0)).1 ∧
      (expandingToNil.serve requests ⟨0, overridden⟩).1.take 4 =
        [.compiled (.ok (some "((a ? b : c)).((m))")), .compiled (.ok none), .compiled (.ok none),
          .compiled (.error (.arity .function (.atLeast 1) 0))] ∧
      expandingToNil.transcript requests ⟨0, overridden⟩ =
        [.defined "if" "nil" (.ok 0), .defined "m" "(a ? b : c)" (.ok 1), .expanded 1 [] (.ok .nil),
          .expanded 1 [] (.ok .nil)] := by
  intro overridden choice requests
  have agree : overridden.AgreeElsewhere .empty := by
    have none : (MacroTable.empty : MacroTable Nat).AgreeElsewhere .empty := fun _ _ => rfl
    exact (none.define .conditional 7).define .sequence 8
  have same := serve_specialNames expandingToNil 0 agree requests
  exact ⟨agree, same.1, (congrArg (List.take 4) same.1).trans rfl, same.2.1.trans rfl⟩

end Compiler

end LispCompiler
