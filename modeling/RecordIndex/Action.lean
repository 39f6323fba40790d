import RecordIndex.Error

/-!
# Actions

An operation on an open file, a store or a tree is an action on a state: it answers or fails, and
either way it leaves a state. What it has changed before it fails stays changed.

* `Action.within` runs an action on a part of a larger state.
* The `run` lemmas say how the pieces of an action compose.
-/

namespace RecordIndex

/-- An operation on a state `σ` that answers an `α` or fails. -/
abbrev Action (σ α : Type) := EStateM Failure σ α

/-- The outcome of an action: its answer or failure, and the state that it leaves. -/
abbrev Outcome (σ α : Type) := EStateM.Result Failure σ α

namespace Action

variable {σ τ α β : Type}

/-- Fails with an error. -/
def fail (e : Error) : Action σ α := throw (.error e)

/-- Fails with a fault. -/
def fault (f : Fault) : Action σ α := throw (.fault f)

/-- An answer that may be an error, as an action. -/
def ofExcept : Except Error α → Action σ α
  | .ok a => pure a
  | .error e => fail e

/-- An answer that may be a failure, as an action. -/
def ofResult : Except Failure α → Action σ α
  | .ok a => pure a
  | .error e => throw e

/-- An answer that may be a fault, as an action. -/
def ofChecked : Except Fault α → Action σ α
  | .ok a => pure a
  | .error f => fault f

/-- Runs an action on a part of the state. -/
def within (part : σ → τ) (setPart : τ → σ → σ) (x : Action τ α) : Action σ α :=
  fun s =>
    match x (part s) with
    | .ok a t => .ok a (setPart t s)
    | .error e t => .error e (setPart t s)

/-- The state that an outcome leaves. -/
def finalState : Outcome σ α → σ
  | .ok _ s => s
  | .error _ s => s

/-- What an outcome answers. -/
def answer : Outcome σ α → Except Failure α
  | .ok a _ => .ok a
  | .error e _ => .error e

@[simp] theorem run_fail (e : Error) (s : σ) :
    (fail e : Action σ α) s = .error (.error e) s := rfl

@[simp] theorem run_fault (f : Fault) (s : σ) :
    (fault f : Action σ α) s = .error (.fault f) s := rfl

@[simp] theorem run_pure (a : α) (s : σ) : (pure a : Action σ α) s = .ok a s := rfl

@[simp] theorem run_get (s : σ) : (get : Action σ σ) s = .ok s s := rfl

@[simp] theorem run_set (s s' : σ) : (set s' : Action σ PUnit) s = .ok ⟨⟩ s' := rfl

@[simp] theorem run_modify (f : σ → σ) (s : σ) :
    (modify f : Action σ PUnit) s = .ok ⟨⟩ (f s) := rfl

@[simp] theorem ofExcept_ok (a : α) : (ofExcept (.ok a) : Action σ α) = pure a := rfl

@[simp] theorem ofExcept_error (e : Error) : (ofExcept (.error e) : Action σ α) = fail e := rfl

@[simp] theorem ofResult_ok (a : α) : (ofResult (.ok a) : Action σ α) = pure a := rfl

@[simp] theorem ofChecked_ok (a : α) : (ofChecked (.ok a) : Action σ α) = pure a := rfl

@[simp] theorem ofChecked_error (f : Fault) : (ofChecked (.error f) : Action σ α) = fault f := rfl

theorem run_bind (x : Action σ α) (f : α → Action σ β) (s : σ) :
    (x >>= f) s = match x s with
      | .ok a s => f a s
      | .error e s => .error e s := by
  show EStateM.bind x f s = _
  unfold EStateM.bind
  cases x s <;> rfl

theorem run_within {part : σ → τ} {setPart : τ → σ → σ} (x : Action τ α) (s : σ) :
    within part setPart x s = match x (part s) with
      | .ok a t => .ok a (setPart t s)
      | .error e t => .error e (setPart t s) := rfl

/-- An action on a part leaves the whole with what the action leaves of the part. -/
theorem finalState_within {part : σ → τ} {setPart : τ → σ → σ} (x : Action τ α) (s : σ) :
    finalState (within part setPart x s) = setPart (finalState (x (part s))) s := by
  rw [run_within]
  cases x (part s) <;> rfl

end Action
end RecordIndex
