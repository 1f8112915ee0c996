import LispCompiler.Proofs.Token.Lexeme

namespace LispCompiler

theorem byteLength_append (left right : List Char) :
    byteLength (left ++ right) = byteLength left + byteLength right := by
  induction left with
  | nil => simp [byteLength]
  | cons c left ih => simp [byteLength, ih, Nat.add_assoc]

theorem eq_nil_of_byteLength {text : List Char} (empty : byteLength text = 0) : text = [] := by
  cases text with
  | nil => rfl
  | cons c text =>
    have positive := c.utf8Size_pos
    simp only [byteLength] at empty
    omega

def Span.Covers (span : Span) (byte : Nat) : Prop :=
  span.lo ≤ byte ∧ byte < span.hi

namespace Token

/-- The token covers whole characters of `text`, which starts at byte `position`, and its text is
what it covers. `behind` is what follows it. -/
def StandsBefore (position : Nat) (text behind : List Char) (token : Token) : Prop :=
  ∃ before, text = before ++ (token.text.toList ++ behind) ∧
    token.start = position + byteLength before

structure Tokenises (position : Nat) (text : List Char) (tokens : List Token) : Prop where
  ordered : tokens.Pairwise fun earlier later => earlier.span.hi ≤ later.span.lo
  located : ∀ token ∈ tokens, ∃ behind, token.StandsBefore position text behind ∧
    (token.kind ≠ .eof → Lexeme token.kind token.text.toList behind)
  blanks : ∀ before c behind, text = before ++ c :: behind →
    ∀ byte, Span.Covers ⟨position + byteLength before, c.utf8Size⟩ byte →
      (∀ token ∈ tokens, ¬token.span.Covers byte) → isBlank c
  /-- Nothing but the last token marks the end, and nothing but it is empty. -/
  ends : ∃ body, tokens = body ++ [⟨.eof, position + byteLength text, ""⟩] ∧
    ∀ token ∈ body, token.kind ≠ .eof ∧ token.text ≠ ""

section Regions

variable {position : Nat} {text behind : List Char} {token : Token}

theorem covers_span_iff {byte : Nat} : token.span.Covers byte ↔
    token.start ≤ byte ∧ byte < token.start + byteLength token.text.toList :=
  Iff.rfl

theorem StandsBefore.start_le (stands : token.StandsBefore position text behind) :
    position ≤ token.start := by
  rcases stands with ⟨before, -, start⟩
  omega

theorem StandsBefore.shift (passed : List Char)
    (stands : token.StandsBefore (position + byteLength passed) text behind) :
    token.StandsBefore position (passed ++ text) behind := by
  rcases stands with ⟨before, split, start⟩
  refine ⟨passed ++ before, by simp [split], ?_⟩
  rw [start, byteLength_append, Nat.add_assoc]

theorem exists_suffix {passed before rest : List Char} (split : passed ++ text = before ++ rest)
    (later : byteLength passed ≤ byteLength before) :
    ∃ more, before = passed ++ more ∧ text = more ++ rest := by
  rcases List.append_eq_append_iff.mp split with ⟨more, longer, remaining⟩ | ⟨more, longer, remaining⟩
  · exact ⟨more, longer, remaining⟩
  · have length := congrArg byteLength longer
    rw [byteLength_append] at length
    obtain rfl : more = [] := eq_nil_of_byteLength (by omega)
    exact ⟨[], by simpa using longer.symm, by simpa using remaining.symm⟩

/-- A character that starts before a part of a text ends belongs to that part. -/
theorem exists_prefix {passed before after : List Char} {c : Char}
    (split : passed ++ text = before ++ c :: after)
    (earlier : byteLength before < byteLength passed) : ∃ more, passed = before ++ c :: more := by
  rcases List.append_eq_append_iff.mp split with ⟨more, longer, -⟩ | ⟨more, longer, remaining⟩
  · rw [longer, byteLength_append] at earlier
    omega
  · cases more with
    | nil =>
      rw [longer, byteLength_append] at earlier
      simp [byteLength] at earlier
    | cons d more =>
      simp only [List.cons_append, List.cons.injEq] at remaining
      exact ⟨more, by rw [longer, remaining.1]⟩

theorem StandsBefore.unshift (passed : List Char)
    (stands : token.StandsBefore position (passed ++ text) behind)
    (later : position + byteLength passed ≤ token.start) :
    token.StandsBefore (position + byteLength passed) text behind := by
  rcases stands with ⟨before, split, start⟩
  rcases exists_suffix split (by omega) with ⟨more, rfl, remaining⟩
  rw [byteLength_append] at start
  exact ⟨more, remaining, by omega⟩

theorem StandsBefore.at_start (stands : token.StandsBefore position text behind)
    (first : token.start ≤ position) : token.start = position ∧ text = token.text.toList ++ behind := by
  rcases stands with ⟨before, split, start⟩
  obtain rfl : before = [] := eq_nil_of_byteLength (by omega)
  exact ⟨start, split⟩

end Regions

section Existence

variable {position : Nat} {first : Char} {rest : List Char} {tokens : List Token}

theorem tokenises_nil : Tokenises position [] [⟨.eof, position, ""⟩] where
  ordered := List.pairwise_singleton _ _
  located := by
    intro token member
    obtain rfl := List.mem_singleton.mp member
    exact ⟨[], ⟨[], rfl, rfl⟩, fun other => absurd rfl other⟩
  blanks := by
    intro before c behind split
    simp at split
  ends := ⟨[], rfl, nofun⟩

theorem Tokenises.blank (blank : isBlank first)
    (behind : Tokenises (position + first.utf8Size) rest tokens) :
    Tokenises position (first :: rest) tokens where
  ordered := behind.ordered
  located := by
    intro token member
    rcases behind.located token member with ⟨after, stands, lexeme⟩
    exact ⟨after, stands.shift [first], lexeme⟩
  blanks := by
    intro before c after split byte covered free
    cases before with
    | nil =>
      obtain rfl : first = c := by simpa using congrArg List.head? split
      exact blank
    | cons d before =>
      simp only [List.cons_append, List.cons.injEq] at split
      rcases split with ⟨rfl, split⟩
      refine behind.blanks before c after split byte ?_ free
      simpa [byteLength, Nat.add_assoc] using covered
  ends := by
    rcases behind.ends with ⟨body, whole, others⟩
    refine ⟨body, ?_, others⟩
    rw [whole, byteLength, Nat.add_assoc]

theorem Tokenises.lexeme {kind : Kind} {text behind : List Char} (lexeme : Lexeme kind text behind)
    (other : kind ≠ .eof) (tokenised : Tokenises (position + byteLength text) behind tokens) :
    Tokenises position (text ++ behind) (⟨kind, position, String.ofList text⟩ :: tokens) where
  ordered := by
    refine List.pairwise_cons.mpr ⟨?_, tokenised.ordered⟩
    intro token member
    rcases tokenised.located token member with ⟨after, stands, -⟩
    simpa [span, Span.hi] using stands.start_le
  located := by
    refine List.forall_mem_cons.mpr ⟨?_, ?_⟩
    · exact ⟨behind, ⟨[], by simp, by simp [byteLength]⟩, fun _ => by simpa using lexeme⟩
    · intro token member
      rcases tokenised.located token member with ⟨after, stands, lexeme⟩
      exact ⟨after, stands.shift text, lexeme⟩
  blanks := by
    intro before c after split byte covered free
    rcases List.forall_mem_cons.mp free with ⟨outside, free⟩
    -- A character within the lexeme is covered, so the lexeme ends before the character does.
    have later : byteLength text ≤ byteLength before := by
      by_cases earlier : byteLength before < byteLength text
      · rcases exists_prefix split earlier with ⟨more, rfl⟩
        simp only [Span.Covers, Span.hi] at covered
        refine absurd (covers_span_iff.mpr ⟨?_, ?_⟩) outside
        · change position ≤ byte
          omega
        · simp only [String.toList_ofList, byteLength_append, byteLength]
          omega
      · omega
    rcases exists_suffix split later with ⟨more, rfl, remaining⟩
    refine tokenised.blanks more c after remaining byte ?_ free
    simpa [byteLength_append, Nat.add_assoc] using covered
  ends := by
    rcases tokenised.ends with ⟨body, whole, others⟩
    refine ⟨⟨kind, position, String.ofList text⟩ :: body, ?_, ?_⟩
    · rw [whole, byteLength_append, Nat.add_assoc]
      rfl
    · have nonempty : text ≠ [] := by
        rcases scan_of_lexeme lexeme with ⟨first, rest, -, -, piece⟩
        have text_ne_nil := scan_text_ne_nil first rest
        rwa [piece] at text_ne_nil
      exact List.forall_mem_cons.mpr ⟨⟨other, by simpa using nonempty⟩, others⟩

theorem lexFrom_tokenises (position : Nat) (source : List Char) :
    Tokenises position source (lexFrom position source) := by
  fun_induction lexFrom position source with
  | case1 position => exact tokenises_nil
  | case2 position first rest blank ih => exact ih.blank blank
  | case3 position first rest visible piece ih =>
    have lexeme : Lexeme piece.kind piece.text piece.rest := scan_lexeme (by simpa using visible) rest
    have whole := ih.lexeme lexeme (scan_kind_ne_eof first rest)
    rwa [scan_append] at whole

end Existence

section Uniqueness

variable {position : Nat} {first : Char} {rest : List Char} {tokens : List Token} {token : Token}

theorem Tokenises.eq_nil (tokenised : Tokenises position [] tokens) :
    tokens = [⟨.eof, position, ""⟩] := by
  rcases tokenised.ends with ⟨body, rfl, others⟩
  cases body with
  | nil => rfl
  | cons token body =>
    rcases tokenised.located token (by simp) with ⟨behind, ⟨before, split, -⟩, -⟩
    have empty : token.text.toList = [] := by
      simp only [List.nil_eq, List.append_eq_nil_iff] at split
      exact split.2.1
    exact absurd (String.toList_eq_nil_iff.mp empty) (others token (by simp)).2

theorem Tokenises.start_of_eof {text : List Char} (tokenised : Tokenises position text tokens)
    (member : token ∈ tokens) (ends : token.kind = .eof) : token.start = position + byteLength text := by
  rcases tokenised.ends with ⟨body, rfl, others⟩
  rcases List.mem_append.mp member with earlier | last
  · exact absurd ends (others token earlier).1
  · rw [List.mem_singleton.mp last]

theorem Tokenises.start_after_blank (blank : isBlank first)
    (tokenised : Tokenises position (first :: rest) tokens) (member : token ∈ tokens) :
    position + byteLength [first] ≤ token.start := by
  rcases tokenised.located token member with ⟨behind, ⟨before, split, start⟩, lexeme⟩
  by_cases ends : token.kind = .eof
  · rw [tokenised.start_of_eof member ends]
    simp only [byteLength]
    omega
  · cases before with
    | nil =>
      rcases scan_of_lexeme (lexeme ends) with ⟨c, cs, starts, visible, -⟩
      have same : first :: rest = c :: cs := by rw [split, List.nil_append, starts]
      rw [List.cons.injEq] at same
      rw [same.1, visible] at blank
      exact absurd blank (by simp)
    | cons d before =>
      simp only [List.cons_append, List.cons.injEq] at split
      rw [start, ← split.1]
      simp only [byteLength]
      omega

theorem Tokenises.of_blank (blank : isBlank first)
    (tokenised : Tokenises position (first :: rest) tokens) :
    Tokenises (position + first.utf8Size) rest tokens where
  ordered := tokenised.ordered
  located := by
    intro token member
    rcases tokenised.located token member with ⟨behind, stands, lexeme⟩
    have later := tokenised.start_after_blank blank member
    exact ⟨behind, stands.unshift [first] later, lexeme⟩
  blanks := by
    intro before c behind split byte covered free
    refine tokenised.blanks (first :: before) c behind (by simp [split]) byte ?_ free
    simpa [byteLength, Nat.add_assoc] using covered
  ends := by
    rcases tokenised.ends with ⟨body, whole, others⟩
    refine ⟨body, ?_, others⟩
    rw [whole, byteLength, Nat.add_assoc]

/-- A character that is no blank is covered by the first token. -/
theorem Tokenises.head_covers (visible : isBlank first = false)
    (tokenised : Tokenises position (first :: rest) tokens) :
    ∃ head tail, tokens = head :: tail ∧ head.start ≤ position ∧ head.kind ≠ .eof := by
  have covered : ∃ token ∈ tokens, token.span.Covers position := by
    refine Classical.byContradiction fun free => ?_
    have first_covers : Span.Covers ⟨position + byteLength [], first.utf8Size⟩ position := by
      have positive := first.utf8Size_pos
      simpa [Span.Covers, Span.hi, byteLength] using positive
    have blank := tokenised.blanks [] first rest rfl position first_covers
      fun token member covers => free ⟨token, member, covers⟩
    simp [visible] at blank
  rcases covered with ⟨token, member, covers⟩
  cases tokens with
  | nil => simp at member
  | cons head tail =>
    have starts : head.start ≤ position := by
      rcases List.mem_cons.mp member with rfl | later
      · exact covers.1
      · have before := (List.pairwise_cons.mp tokenised.ordered).1 token later
        exact Nat.le_trans (Nat.le_add_right _ _) (Nat.le_trans before covers.1)
    refine ⟨head, tail, rfl, starts, ?_⟩
    intro ends
    have start := tokenised.start_of_eof (by simp) ends
    have positive := first.utf8Size_pos
    simp only [byteLength] at start
    omega

theorem Tokenises.tail {head : Token} {tail : List Token} {behind : List Char}
    (tokenised : Tokenises head.start (head.text.toList ++ behind) (head :: tail))
    (other : head.kind ≠ .eof) :
    Tokenises (head.start + byteLength head.text.toList) behind tail where
  ordered := (List.pairwise_cons.mp tokenised.ordered).2
  located := by
    intro token member
    rcases tokenised.located token (by simp [member]) with ⟨after, stands, lexeme⟩
    have later := (List.pairwise_cons.mp tokenised.ordered).1 token member
    exact ⟨after, stands.unshift _ later, lexeme⟩
  blanks := by
    intro before c after split byte covered free
    refine tokenised.blanks (head.text.toList ++ before) c after (by simp [split]) byte ?_ ?_
    · simpa [byteLength_append, Nat.add_assoc] using covered
    · refine List.forall_mem_cons.mpr ⟨?_, free⟩
      intro covers
      have inside := (covers_span_iff.mp covers).2
      have outside : head.start + byteLength head.text.toList + byteLength before ≤ byte := covered.1
      omega
  ends := by
    rcases tokenised.ends with ⟨body, split, others⟩
    cases body with
    | nil =>
      simp only [List.nil_append, List.cons.injEq] at split
      exact absurd (by rw [split.1]) other
    | cons token body =>
      simp only [List.cons_append, List.cons.injEq] at split
      refine ⟨body, ?_, (List.forall_mem_cons.mp others).2⟩
      rw [split.2, byteLength_append, Nat.add_assoc]

theorem Tokenises.of_visible (visible : isBlank first = false)
    (tokenised : Tokenises position (first :: rest) tokens) :
    ∃ tail, tokens = ⟨(scan first rest).kind, position, String.ofList (scan first rest).text⟩ :: tail ∧
      Tokenises (position + byteLength (scan first rest).text) (scan first rest).rest tail := by
  rcases tokenised.head_covers visible with ⟨head, tail, rfl, starts, other⟩
  rcases tokenised.located head (by simp) with ⟨behind, stands, lexeme⟩
  rcases stands.at_start starts with ⟨rfl, whole⟩
  have piece : scan first rest = ⟨head.kind, head.text.toList, behind⟩ := by
    rcases scan_of_lexeme (lexeme other) with ⟨c, cs, split, -, piece⟩
    rw [← whole, List.cons.injEq] at split
    rw [split.1, split.2, piece]
  rw [whole] at tokenised
  rw [piece]
  exact ⟨tail, by simp, tokenised.tail other⟩

theorem eq_lexFrom_of_tokenises (position : Nat) (source : List Char) :
    ∀ tokens, Tokenises position source tokens → tokens = lexFrom position source := by
  fun_induction lexFrom position source with
  | case1 position =>
    intro tokens tokenised
    exact tokenised.eq_nil
  | case2 position first rest blank ih =>
    intro tokens tokenised
    exact ih tokens (tokenised.of_blank blank)
  | case3 position first rest visible piece ih =>
    intro tokens tokenised
    rcases tokenised.of_visible (by simpa using visible) with ⟨tail, rfl, behind⟩
    rw [ih tail behind]

/-- The tokens of a source are its only tokenisation: they are in order and apart, each is a lexeme
of its kind where it stands, all else is blank, and the end is marked once. -/
theorem tokenises_iff_eq_lex (source : String) (tokens : List Token) :
    Tokenises 0 source.toList tokens ↔ tokens = lex source := by
  constructor
  · intro tokenised
    exact eq_lexFrom_of_tokenises 0 source.toList tokens tokenised
  · rintro rfl
    exact lexFrom_tokenises 0 source.toList

end Uniqueness

end Token

end LispCompiler
