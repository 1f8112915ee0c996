import LispCompiler.Proofs.Datum.Reading
import LispCompiler.Proofs.Interpreter.Calls
import LispCompiler.Proofs.Text.Whitespace
import LispCompiler.Proofs.Token.Tokenisation

namespace LispCompiler.Interpreter

section Answers

def Reads (text : String) (form : Option Datum) : Prop :=
  ∃ tokens, Token.Tokenises 0 text.toList tokens ∧ Grammar.First tokens form

def Bears (word payload line : String) : Prop :=
  line = word ∧ payload = "" ∨ line = word ++ " " ++ payload

/-- A line and the bytes that show it. White space at their end does not belong to it. -/
inductive Shows : List UInt8 → String → Prop
  | intro {line blanks : String} (visible : ∀ c ∈ line.toList.getLast?, Whitespace.isWhitespace c = false)
      (space : ∀ c ∈ blanks.toList, Whitespace.isWhitespace c) :
      Shows (Bytes.ofText (line ++ blanks)) line

inductive Says (reply : List UInt8) : Except HostError (Option Datum) → Prop
  | ended (silent : reply = []) : Says reply (.error (.process "the interpreter exited"))
  | undecodable (invalid : ∀ text, reply ≠ Bytes.ofText text) :
      Says reply (.error (.process "lost the interpreter: stream did not contain valid UTF-8"))
  | accepted {line payload : String} {form : Option Datum} (shown : Shows reply line)
      (bears : Bears "ok" payload line) (reads : Reads payload form) : Says reply (.ok form)
  | raised {line payload message : String} (shown : Shows reply line)
      (bears : Bears "error" payload line) (reads : Reads payload (some (.string message))) :
      Says reply (.error (.raised message))
  | malformed {line : String} (spoken : reply ≠ []) (shown : Shows reply line)
      (unaccepted : ∀ payload form, Bears "ok" payload line → ¬Reads payload form)
      (unraised : ∀ payload message, Bears "error" payload line →
        ¬Reads payload (some (.string message))) :
      Says reply (.error (.process ("malformed reply `" ++ line ++ "`")))

end Answers

section Lines

variable {word payload line : String} {form : Option Datum} {reply : List UInt8}

theorem reads_iff : Reads payload form ↔ Datum.readFirst payload = .ok form := by
  rw [Reader.readFirst_eq_ok_iff]
  constructor
  · intro reads
    rcases reads with ⟨tokens, tokenised, first⟩
    rwa [Token.eq_lexFrom_of_tokenises 0 payload.toList tokens tokenised] at first
  · intro first
    exact ⟨_, Token.lexFrom_tokenises 0 payload.toList, first⟩

theorem Bears.split (bears : Bears word payload line) (whole : ' ' ∉ word.toList) :
    line.toList.takeWhile (· != ' ') = word.toList ∧
      (line.toList.dropWhile (· != ' ')).drop 1 = payload.toList := by
  have inside : ∀ c ∈ word.toList, (c != ' ') = true := by
    intro c member
    exact bne_iff_ne.mpr fun same => whole (same ▸ member)
  rcases bears with ⟨rfl, rfl⟩ | rfl
  · rw [List.takeWhile_eq_self_iff.mpr inside, List.dropWhile_eq_nil_iff.mpr inside]
    exact ⟨rfl, rfl⟩
  · have behind : (word ++ " " ++ payload).toList = word.toList ++ ' ' :: payload.toList := by simp
    rw [behind, List.takeWhile_append_of_pos inside, List.dropWhile_append_of_pos inside]
    simp

theorem exists_bears (line : String) : ∃ word payload, ' ' ∉ word.toList ∧ Bears word payload line := by
  by_cases space : ' ' ∈ line.toList
  · rcases List.eq_append_cons_of_mem space with ⟨word, payload, split, whole⟩
    refine ⟨.ofList word, .ofList payload, by simpa using whole, .inr ?_⟩
    apply String.toList_inj.mp
    simp [split]
  · exact ⟨line, "", space, .inl ⟨rfl, rfl⟩⟩

theorem decodeReply_ok (bears : Bears "ok" payload line) (read : Datum.readFirst payload = .ok form) :
    decodeReply line.toList = .ok form := by
  rcases bears.split (by decide) with ⟨status, behind⟩
  simp only [decodeReply, status, behind, String.ofList_toList, read, if_true]

theorem decodeReply_error {message : String} (bears : Bears "error" payload line)
    (read : Datum.readFirst payload = .ok (some (.string message))) :
    decodeReply line.toList = .error (.raised message) := by
  rcases bears.split (by decide) with ⟨status, behind⟩
  simp only [decodeReply, status, behind, String.ofList_toList, read, if_true]
  rfl

theorem decodeReply_malformed (unaccepted : ∀ payload form, Bears "ok" payload line → ¬Reads payload form)
    (unraised : ∀ payload message, Bears "error" payload line → ¬Reads payload (some (.string message))) :
    decodeReply line.toList = .error (.process ("malformed reply `" ++ line ++ "`")) := by
  rcases exists_bears line with ⟨word, payload, whole, bears⟩
  rcases bears.split whole with ⟨status, behind⟩
  simp only [decodeReply, status, behind, String.ofList_toList]
  cases read : Datum.readFirst payload with
  | error error => rfl
  | ok form =>
    have other : word ≠ "ok" := by
      rintro rfl
      exact unaccepted payload form bears (reads_iff.mpr read)
    simp only [if_neg other]
    split
    · next message =>
      have another : word ≠ "error" := by
        rintro rfl
        exact unraised payload message bears (reads_iff.mpr read)
      rw [if_neg another]
      rfl
    · rfl

theorem exists_shows (text : String) : ∃ line, Shows (Bytes.ofText text) line := by
  rcases Whitespace.exists_blanks text.toList with ⟨blanks, split, space, visible⟩
  have whole : text = .ofList (Whitespace.trimEnd text.toList) ++ .ofList blanks := by
    rw [← String.ofList_append, ← split, String.ofList_toList]
  refine ⟨.ofList (Whitespace.trimEnd text.toList), ?_⟩
  nth_rewrite 1 [whole]
  exact .intro (by rwa [String.toList_ofList]) (by rwa [String.toList_ofList])

theorem heard_of_shows (shown : Shows reply line) (spoken : reply ≠ []) : heard reply = decodeReply line.toList := by
  cases shown with
  | @intro line blanks visible space =>
    have trimmed : Whitespace.trimEnd (line ++ blanks).toList = line.toList := by
      rw [String.toList_append, Whitespace.trimEnd_append space, Whitespace.trimEnd_eq_self visible]
    rw [heard, if_neg (by simpa using spoken), Bytes.toText_ofText]
    exact congrArg decodeReply trimmed

theorem heard_of_invalid (invalid : ∀ text, reply ≠ Bytes.ofText text) :
    heard reply = .error (.process "lost the interpreter: stream did not contain valid UTF-8") := by
  have spoken : reply ≠ [] := invalid ""
  rw [heard, if_neg (by simpa using spoken), Bytes.toText_invalid invalid]
  rfl

theorem Shows.ne_nil (shown : Shows reply line) (bears : Bears word payload line) (named : word ≠ "") :
    reply ≠ [] := by
  cases shown with
  | intro visible space =>
    intro silent
    have empty := @Bytes.ofText_injective _ "" silent
    rcases bears with ⟨rfl, -⟩ | rfl
    · exact named (String.append_eq_empty_iff.mp empty).1
    · simp at empty

end Lines

theorem says_heard (reply : List UInt8) : Says reply (heard reply) := by
  by_cases silent : reply = []
  · rw [silent]
    exact .ended rfl
  by_cases valid : ∃ text, reply = Bytes.ofText text
  · rcases valid with ⟨text, rfl⟩
    rcases exists_shows text with ⟨line, shown⟩
    rw [heard_of_shows shown silent]
    by_cases accepts : ∃ payload form, Bears "ok" payload line ∧ Reads payload form
    · rcases accepts with ⟨payload, form, bears, reads⟩
      rw [decodeReply_ok bears (reads_iff.mp reads)]
      exact .accepted shown bears reads
    by_cases raises : ∃ payload message, Bears "error" payload line ∧ Reads payload (some (.string message))
    · rcases raises with ⟨payload, message, bears, reads⟩
      rw [decodeReply_error bears (reads_iff.mp reads)]
      exact .raised shown bears reads
    have unaccepted : ∀ payload form, Bears "ok" payload line → ¬Reads payload form := by
      intro payload form bears reads
      exact accepts ⟨payload, form, bears, reads⟩
    have unraised : ∀ payload message, Bears "error" payload line →
        ¬Reads payload (some (.string message)) := by
      intro payload message bears reads
      exact raises ⟨payload, message, bears, reads⟩
    rw [decodeReply_malformed unaccepted unraised]
    exact .malformed silent shown unaccepted unraised
  · have invalid : ∀ text, reply ≠ Bytes.ofText text := not_exists.mp valid
    rw [heard_of_invalid invalid]
    exact .undecodable invalid

/-- A host takes a reply for what its text says. -/
theorem heard_eq_iff {reply : List UInt8} {received : Except HostError (Option Datum)} :
    heard reply = received ↔ Says reply received := by
  constructor
  · rintro rfl
    exact says_heard reply
  · intro said
    cases said with
    | ended silent =>
      rw [silent]
      rfl
    | undecodable invalid => exact heard_of_invalid invalid
    | accepted shown bears reads =>
      rw [heard_of_shows shown (shown.ne_nil bears (by decide))]
      exact decodeReply_ok bears (reads_iff.mp reads)
    | raised shown bears reads =>
      rw [heard_of_shows shown (shown.ne_nil bears (by decide))]
      exact decodeReply_error bears (reads_iff.mp reads)
    | malformed spoken shown unaccepted unraised =>
      rw [heard_of_shows shown spoken]
      exact decodeReply_malformed unaccepted unraised

end LispCompiler.Interpreter
