/-!
# Errors

The errors of the fallible functions: an `anyhow` chain of context texts over a cause. What a
library call or a remote service reports is its text (`external`).
-/

/-- Why `RecordBatch::try_new` refuses. -/
inductive ArrowError
  | columnCount (fields columns : Nat)
  | dataType
  | nullInRequired
deriving DecidableEq, Repr

inductive Error
  | msg (text : String)
  | external (text : String)
  | arrow (e : ArrowError)
  | panic (text : String)
  | context (text : String) (cause : Error)
deriving DecidableEq, Repr

/-- What the outside answers to one request: success, or an error's text. -/
abbrev Reply := Except String Unit

namespace Except

variable {α : Type} {text : String} {a : α} {r : Except Error α}

/-- `.context(text)` on a result. -/
def withContext (r : Except Error α) (text : String) : Except Error α :=
  match r with
  | .ok a => .ok a
  | .error e => .error (.context text e)

/-- Whether a result is a value. -/
instance instDecidableExistsOk {ε : Type} (r : Except ε α) : Decidable (∃ a, r = .ok a) :=
  match r with
  | .ok a => isTrue ⟨a, rfl⟩
  | .error _ => isFalse fun h => by
    obtain ⟨_, h⟩ := h
    cases h

/-- A sequence of two takes apart. -/
theorem bind_eq_ok {ε β : Type} {x : Except ε α} {f : α → Except ε β} {b : β} :
    x >>= f = .ok b ↔ ∃ a, x = .ok a ∧ f a = .ok b := by
  cases x <;> simp [bind, Except.bind]

@[simp] theorem withContext_ok : withContext (.ok a) text = .ok a := rfl

@[simp] theorem withContext_eq_ok : r.withContext text = .ok a ↔ r = .ok a := by
  cases r <;> simp [withContext]

end Except
