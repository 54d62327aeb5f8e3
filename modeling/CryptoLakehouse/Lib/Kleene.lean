/-!
# Three-valued logic

Truth values with NULL: `some true`, `some false`, and `none` for NULL. A filter keeps a row when
its predicate is `some true`, so the lemmas here characterise exactly that.
-/

namespace Kleene

/-- AND: false when either side is, NULL when it depends on a NULL. -/
def and : Option Bool → Option Bool → Option Bool
  | some true, b => b
  | some false, _ => some false
  | none, some false => some false
  | none, _ => none

/-- OR: true when either side is, NULL when it depends on a NULL. -/
def or : Option Bool → Option Bool → Option Bool
  | some false, b => b
  | some true, _ => some true
  | none, some true => some true
  | none, _ => none

variable {a b : Option Bool}

@[simp] theorem and_eq_true : and a b = some true ↔ a = some true ∧ b = some true := by
  rcases a with _ | _ | _ <;> rcases b with _ | _ | _ <;> simp [and]

@[simp] theorem or_eq_true : or a b = some true ↔ a = some true ∨ b = some true := by
  rcases a with _ | _ | _ <;> rcases b with _ | _ | _ <;> simp [or]

end Kleene
