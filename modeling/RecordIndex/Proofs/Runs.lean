import RecordIndex.Action

/-!
# Runs of actions

When an action answers, each of its steps has answered. The lemmas take such a run apart at the
first step, and put it together again.

* `Action.bind_eq_ok_iff`: one step after the other.
* `Action.within_eq_ok_iff`: a step on a part of the state.
* `Action.Concludes x s Q E`: run on `s`, the action answers as `Q` says, or fails as `E` says; both say
  it of the state that is left, too. What a first step leaves is what the next one starts from
  (`Concludes.bind`).
-/

namespace RecordIndex.Action

variable {σ τ α β : Type} {s s' : σ} {a a' : α} {b : β}

theorem bind_eq_ok_iff {x : Action σ α} {f : α → Action σ β} :
    (x >>= f) s = .ok b s' ↔ ∃ a s₁, x s = .ok a s₁ ∧ f a s₁ = .ok b s' := by
  rw [run_bind]
  cases x s with
  | error e s₁ => simp
  | ok a s₁ =>
    constructor
    · intro h
      exact ⟨a, s₁, rfl, h⟩
    · rintro ⟨a', s₂, hx, hf⟩
      cases hx
      exact hf

theorem run_map (f : α → β) (x : Action σ α) (s : σ) :
    (f <$> x) s = match x s with
      | .ok a s => .ok (f a) s
      | .error e s => .error e s := by
  rw [map_eq_pure_bind, run_bind]
  cases x s <;> rfl

theorem finalState_map (f : α → β) (x : Action σ α) (s : σ) :
    finalState ((f <$> x) s) = finalState (x s) := by
  rw [run_map]
  cases x s <;> rfl

theorem map_eq_ok_iff {f : α → β} {x : Action σ α} :
    (f <$> x) s = .ok b s' ↔ ∃ a, x s = .ok a s' ∧ f a = b := by
  rw [run_map]
  cases x s with
  | error e s₁ => simp
  | ok a s₁ =>
    constructor
    · intro h
      cases h
      exact ⟨a, rfl, rfl⟩
    · rintro ⟨a', hx, rfl⟩
      cases hx
      rfl

theorem pure_eq_ok_iff : (pure a : Action σ α) s = .ok a' s' ↔ a = a' ∧ s = s' := by
  rw [run_pure, EStateM.Result.ok.injEq]

theorem ofExcept_eq_ok_iff {x : Except Error α} :
    ofExcept x s = .ok a s' ↔ x = .ok a ∧ s = s' := by
  cases x with
  | error e => simp
  | ok a' => simp

theorem ofChecked_eq_ok_iff {x : Except Fault α} :
    ofChecked x s = .ok a s' ↔ x = .ok a ∧ s = s' := by
  cases x with
  | ok a' => simp
  | error f => simp

theorem within_eq_ok_iff {part : σ → τ} {setPart : τ → σ → σ} {x : Action τ α} :
    within part setPart x s = .ok a s' ↔ ∃ t, x (part s) = .ok a t ∧ s' = setPart t s := by
  rw [run_within]
  cases x (part s) with
  | error e t => simp
  | ok a' t =>
    constructor
    · intro h
      cases h
      exact ⟨t, rfl, rfl⟩
    · rintro ⟨t', ht, rfl⟩
      cases ht
      rfl

/-! ### How an action concludes -/

variable {Q : α → σ → Prop} {R : β → σ → Prop} {E E' : Failure → σ → Prop}
  {F : Failure → Prop}

/-- The action answers as `Q` says, or fails as `E` says. -/
def Concludes (x : Action σ α) (s : σ) (Q : α → σ → Prop) (E : Failure → σ → Prop) : Prop :=
  match x s with
  | .ok a s' => Q a s'
  | .error e s' => E e s'

theorem Concludes.of_ok {x : Action σ α} (h : Concludes x s Q E) (hx : x s = .ok a s') : Q a s' := by
  rw [Concludes, hx] at h
  exact h

theorem Concludes.of_error {x : Action σ α} {e : Failure} (h : Concludes x s Q E)
    (hx : x s = .error e s') : E e s' := by
  rw [Concludes, hx] at h
  exact h

theorem Concludes.answer_ne {x : Action σ α} {e : Failure} (h : Concludes x s Q fun e _ => F e)
    (he : ¬ F e) : answer (x s) ≠ .error e := by
  cases hx : x s with
  | ok a s' => nofun
  | error e' s' =>
    intro h'
    cases h'
    exact he (h.of_error hx)

theorem Concludes.mono {x : Action σ α} {P : α → σ → Prop} (h : Concludes x s Q E)
    (hP : ∀ a s', Q a s' → P a s') (hE : ∀ e s', E e s' → E' e s') : Concludes x s P E' := by
  unfold Concludes
  cases hx : x s with
  | ok a s' => exact hP a s' (h.of_ok hx)
  | error e s' => exact hE e s' (h.of_error hx)

/-- What is known of an answer from elsewhere. -/
theorem Concludes.with_ok {x : Action σ α} {P : α → σ → Prop} (h : Concludes x s Q E)
    (hP : ∀ a s', x s = .ok a s' → P a s') : Concludes x s P E := by
  unfold Concludes
  cases hx : x s with
  | ok a s' => exact hP a s' hx
  | error e s' => exact h.of_error hx

theorem concludes_pure (h : Q a s) : Concludes (pure a) s Q E := h

theorem concludes_fail {e : Error} (h : E (.error e) s) : Concludes (fail e : Action σ α) s Q E := h

theorem concludes_ofExcept {x : Except Error α} (hok : ∀ a, x = .ok a → Q a s)
    (herror : ∀ e, x = .error e → E (.error e) s) : Concludes (ofExcept x) s Q E := by
  cases x with
  | ok a => exact hok a rfl
  | error e => exact herror e rfl

theorem concludes_ofResult {x : Except Failure α} (hok : ∀ a, x = .ok a → Q a s)
    (herror : ∀ e, x = .error e → E e s) : Concludes (ofResult x) s Q E := by
  cases x with
  | ok a => exact hok a rfl
  | error e => exact herror e rfl

theorem Concludes.bind {x : Action σ α} {f : α → Action σ β} (hx : Concludes x s Q E)
    (hf : ∀ a s', Q a s' → Concludes (f a) s' R E) : Concludes (x >>= f) s R E := by
  unfold Concludes
  rw [run_bind]
  cases h : x s with
  | ok a s' => exact hf a s' (hx.of_ok h)
  | error e s' => exact hx.of_error h

theorem Concludes.map {x : Action σ α} {f : α → β} (hx : Concludes x s (fun a => R (f a)) E) :
    Concludes (f <$> x) s R E := by
  rw [map_eq_pure_bind]
  exact hx.bind fun a s' h => concludes_pure h

theorem concludes_get_bind {f : σ → Action σ β} (h : Concludes (f s) s R E) :
    Concludes (get >>= f) s R E := h

end RecordIndex.Action
