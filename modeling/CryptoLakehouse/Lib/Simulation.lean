import Mathlib.Logic.Relation
import CryptoLakehouse.Lib.Machine

/-!
# Forward simulation

A machine refines a specification, given as a step relation `spec : τ → τ → Prop`, when some relation
`R` between their states is kept: each step of the machine, whose action is one of `A`, is matched by
some steps of the specification, or by none (`Simulates`). Then every run of such actions is matched
too (`Simulates.run`), and what each step of the specification keeps holds where it ends
(`inv_of_steps`).
-/

namespace Machine

open Relation

variable {σ τ α : Type*}

/-- `R` is a forward simulation of `step` by `spec`, for the actions `A`. -/
def Simulates (step : σ → α → Option σ) (A : α → Prop) (spec : τ → τ → Prop) (R : σ → τ → Prop) :
    Prop :=
  ∀ s a s' t, A a → R s t → step s a = some s' → ∃ t', ReflTransGen spec t t' ∧ R s' t'

section
variable {step : σ → α → Option σ} {A : α → Prop} {spec : τ → τ → Prop} {R : σ → τ → Prop}
  {s s' : σ} {t : τ} {as : List α}

/-- A run is matched as a whole. -/
theorem Simulates.run (h : Simulates step A spec R) (hA : ∀ a ∈ as, A a) (hR : R s t)
    (hr : Machine.run step s as = some s') : ∃ t', ReflTransGen spec t t' ∧ R s' t' := by
  induction as generalizing s t with
  | nil =>
    cases hr
    exact ⟨t, .refl, hR⟩
  | cons a as ih =>
    obtain ⟨m, hm, hr⟩ := run_cons.1 hr
    obtain ⟨t₁, h₁, hR₁⟩ := h s a m t (hA a List.mem_cons_self) hR hm
    obtain ⟨t', h₂, hR'⟩ := ih (fun b hb => hA b (List.mem_cons_of_mem _ hb)) hR₁ hr
    exact ⟨t', h₁.trans h₂, hR'⟩

/-- What a specification keeps is kept over any number of its steps. -/
theorem inv_of_steps {J : τ → Prop} (hJ : ∀ t t', J t → spec t t' → J t') {t t' : τ} (ht : J t)
    (h : ReflTransGen spec t t') : J t' := by
  induction h with
  | refl => exact ht
  | tail _ hstep ih => exact hJ _ _ ih hstep

/-- A simulation that also needs an invariant of the machine. -/
theorem Simulates.of_inv {I : σ → Prop} (hI : ∀ s a s', A a → I s → step s a = some s' → I s')
    (h : ∀ s a s' t, A a → I s → R s t → step s a = some s' →
      ∃ t', ReflTransGen spec t t' ∧ R s' t') :
    Simulates step A spec fun s t => I s ∧ R s t := by
  intro s a s' t ha ⟨hi, hR⟩ hs
  obtain ⟨t', ht, hR'⟩ := h s a s' t ha hi hR hs
  exact ⟨t', ht, hI s a s' ha hi hs, hR'⟩

end

end Machine
