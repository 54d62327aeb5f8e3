/-!
# Fallible state

Rules for `EStateM ε σ`: computations that return a value or an error and keep the state they have
reached in both cases. `bind_ok` and `bind_error` take a run of a sequence apart at its first step;
`bind_of_ok` and `bind_of_error` run it past that step.
-/

namespace Fallible

variable {ε σ α β : Type}

/-- The state a run ends in. -/
def final : EStateM.Result ε σ α → σ
  | .ok _ s => s
  | .error _ s => s

/-- Whether a run returned a value. -/
def succeeded : EStateM.Result ε σ α → Bool
  | .ok _ _ => true
  | .error _ _ => false

/-- The outcome of `x` as a value, to match on. -/
def observe (x : EStateM ε σ α) : EStateM ε σ (Except ε α) := fun s =>
  match x s with
  | .ok a s' => .ok (.ok a) s'
  | .error e s' => .ok (.error e) s'

section
variable {x : EStateM ε σ α} {f : α → EStateM ε σ β} {s s' : σ} {a : α} {b : β} {e : ε}

theorem succeeded_iff {r : EStateM.Result ε σ α} : succeeded r = true ↔ ∃ a s, r = .ok a s := by
  cases r <;> simp [succeeded]

@[simp] theorem final_ok : final (.ok a s : EStateM.Result ε σ α) = s := rfl
@[simp] theorem final_error : final (.error e s : EStateM.Result ε σ α) = s := rfl

theorem bind_apply : (x >>= f) s = match x s with
    | .ok a s₁ => f a s₁
    | .error e s₁ => .error e s₁ := rfl

theorem bind_ok : (x >>= f) s = .ok b s' ↔ ∃ a s₁, x s = .ok a s₁ ∧ f a s₁ = .ok b s' := by
  rw [bind_apply]
  cases x s with
  | error e s₁ => simp
  | ok a s₁ => exact ⟨fun h => ⟨a, s₁, rfl, h⟩, fun ⟨_, _, he, h⟩ => by cases he; exact h⟩

theorem bind_error : (x >>= f) s = .error e s' ↔
    x s = .error e s' ∨ ∃ a s₁, x s = .ok a s₁ ∧ f a s₁ = .error e s' := by
  rw [bind_apply]
  cases x s with
  | error e₁ s₁ => simp
  | ok a s₁ =>
    refine ⟨fun h => .inr ⟨a, s₁, rfl, h⟩, ?_⟩
    rintro (he | ⟨_, _, he, h⟩) <;> cases he
    exact h

theorem map_apply {g : α → β} : (g <$> x) s = match x s with
    | .ok a s₁ => .ok (g a) s₁
    | .error e s₁ => .error e s₁ := rfl

theorem bind_of_ok (h : x s = .ok a s') : (x >>= f) s = f a s' := by rw [bind_apply, h]

theorem bind_of_error (h : x s = .error e s') : (x >>= f) s = .error e s' := by
  rw [bind_apply, h]

@[simp] theorem pure_apply : (pure a : EStateM ε σ α) s = .ok a s := rfl
@[simp] theorem throw_apply : (throw e : EStateM ε σ α) s = .error e s := rfl
@[simp] theorem get_apply : (get : EStateM ε σ σ) s = .ok s s := rfl
@[simp] theorem set_apply : (set s' : EStateM ε σ PUnit) s = .ok ⟨⟩ s' := rfl
@[simp] theorem modify_apply {g : σ → σ} : (modify g : EStateM ε σ PUnit) s = .ok ⟨⟩ (g s) := rfl
@[simp] theorem ofExcept_ok : (ofExcept (.ok a) : EStateM ε σ α) s = .ok a s := rfl
@[simp] theorem ofExcept_error : (ofExcept (.error e) : EStateM ε σ α) s = .error e s := rfl

theorem observe_of_ok (h : x s = .ok a s') : observe x s = .ok (.ok a) s' := by
  rw [observe, h]

theorem observe_of_error (h : x s = .error e s') : observe x s = .ok (.error e) s' := by
  rw [observe, h]

end

end Fallible
