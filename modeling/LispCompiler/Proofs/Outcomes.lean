namespace LispCompiler

section Outcomes

def outcome : EStateM.Result ε σ α → Except ε α
  | .ok value _ => .ok value
  | .error error _ => .error error

def left : EStateM.Result ε σ α → σ
  | .ok _ state => state
  | .error _ state => state

def settled (outcome : Except ε α) (state : σ) : EStateM.Result ε σ α :=
  match outcome with
  | .ok value => .ok value state
  | .error error => .error error state

@[simp]
theorem outcome_settled (result : Except ε α) (state : σ) : outcome (settled result state) = result := by
  cases result <;> rfl

@[simp]
theorem left_settled (result : Except ε α) (state : σ) : left (settled result state) = state := by
  cases result <;> rfl

theorem settled_inj {result other : Except ε α} {state later : σ}
    (same : settled result state = settled other later) : result = other ∧ state = later := by
  have results := congrArg outcome same
  have states := congrArg left same
  rw [outcome_settled, outcome_settled] at results
  rw [left_settled, left_settled] at states
  exact ⟨results, states⟩

end Outcomes

section Binds

variable {x : EStateM ε σ α} {f : α → EStateM ε σ β} {state middle after : σ}

theorem bind_of_ok {value : α} (done : x state = .ok value middle) : (x >>= f) state = f value middle := by
  change EStateM.bind x f state = _
  rw [EStateM.bind, done]

theorem bind_of_error {error : ε} (failed : x state = .error error middle) :
    (x >>= f) state = .error error middle := by
  change EStateM.bind x f state = _
  rw [EStateM.bind, failed]

theorem bind_eq_ok_iff {result : β} :
    (x >>= f) state = .ok result after ↔
      ∃ value middle, x state = .ok value middle ∧ f value middle = .ok result after := by
  cases first : x state with
  | ok value middle => simp [bind_of_ok first, and_assoc]
  | error error middle => simp [bind_of_error first]

theorem bind_return_eq_ok_iff {f : α → β} {value : β} :
    (do return f (← x)) state = .ok value after ↔ ∃ found, x state = .ok found after ∧ f found = value := by
  rw [bind_eq_ok_iff]
  constructor
  · intro steps
    rcases steps with ⟨found, middle, first, rest⟩
    cases rest
    exact ⟨found, first, rfl⟩
  · intro held
    rcases held with ⟨found, first, rfl⟩
    exact ⟨found, after, first, rfl⟩

theorem map_of_settled {result : Except ε α} (done : x state = settled result after) (f : α → β) :
    (x >>= fun value => pure (f value)) state = settled (result.map f) after := by
  cases result with
  | ok value => exact bind_of_ok done
  | error error => exact bind_of_error done

end Binds

end LispCompiler
