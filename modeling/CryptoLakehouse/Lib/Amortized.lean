import Mathlib.Algebra.GroupWithZero.Nat
import CryptoLakehouse.Lib.Machine

/-!
# Amortized costs

Steps cost something and bring something in, and a potential of the states makes up the difference.
Then it does so for whole runs (`run_tally`, and `run_cost` where the cost is the action's alone).
`cost_countP` reads the cost of a run off how often the steps of a kind occur in it, and `sum_map_set`
is for potentials that add up over a list of parts.
-/

namespace Machine

/-- The sum of `q` over the steps of a run. -/
def tally {σ α : Type*} (step : σ → α → Option σ) (q : σ → α → Nat) : σ → List α → Nat
  | _, [] => 0
  | s, a :: as => q s a + (step s a).elim 0 fun s' => tally step q s' as

variable {σ α β : Type*} {step : σ → α → Option σ} {A : α → Prop} {I : σ → Prop} {cost gain : α → Nat}
  {V : σ → Int} {s s' : σ} {as : List α}

/-- Along a run, the cost of an action is the action's. -/
theorem tally_of_run (hr : run step s as = some s') :
    tally step (fun _ a => cost a) s as = (as.map cost).sum := by
  induction as generalizing s with
  | nil => rfl
  | cons a as ih =>
    obtain ⟨m, hm, hr⟩ := run_cons.1 hr
    rw [tally, hm, Option.elim_some, ih hr, List.map_cons, List.sum_cons]

theorem eachStep_of_forall (ha : ∀ a ∈ as, A a) (s : σ) : EachStep step (fun _ a => A a) s as := by
  induction as generalizing s with
  | nil => trivial
  | cons a as ih =>
    exact ⟨ha a List.mem_cons_self, fun m _ => ih (fun b hb => ha b (List.mem_cons_of_mem _ hb)) m⟩

/-- The potential and what the steps bring in pay for a run. -/
theorem run_tally {Q : σ → α → Prop} {c g : σ → α → Nat}
    (hI : ∀ s a s', Q s a → I s → step s a = some s' → I s')
    (hw : ∀ s a s', Q s a → I s → step s a = some s' → c s a + V s' ≤ V s + g s a)
    (hq : EachStep step Q s as) (hs : I s) (hr : run step s as = some s') :
    tally step c s as + V s' ≤ V s + tally step g s as := by
  induction as generalizing s with
  | nil =>
    cases hr
    simp [tally]
  | cons a as ih =>
    obtain ⟨m, hm, hr⟩ := run_cons.1 hr
    have h₁ := hw s a m hq.1 hs hm
    have h₂ := ih (hq.2 m hm) (hI s a m hq.1 hs hm) hr
    rw [tally, tally, hm, Option.elim_some, Option.elim_some]
    omega

/-- `run_tally` for runs of actions `A`. -/
theorem run_cost (hI : ∀ s a s', A a → I s → step s a = some s' → I s')
    (hw : ∀ s a s', A a → I s → step s a = some s' → cost a + V s' ≤ V s + gain a)
    (ha : ∀ a ∈ as, A a) (hs : I s) (hr : run step s as = some s') :
    (as.map cost).sum + V s' ≤ V s + (as.map gain).sum := by
  rw [← tally_of_run hr, ← tally_of_run hr]
  exact run_tally hI hw (eachStep_of_forall ha s) hs hr

/-- The steps of one kind cost `k` each. -/
theorem cost_countP (p : α → Bool) (k : Nat) (as : List α) :
    (as.map fun a => if p a then k else 0).sum = k * as.countP p := by
  induction as with
  | nil => simp
  | cons a as ih =>
    rw [List.map_cons, List.sum_cons, ih, List.countP_cons]
    by_cases h : p a = true
    · simp only [h, if_true, Nat.mul_add, Nat.mul_one]
      omega
    · simp [h]

@[simp] theorem cost_free (as : List α) : (as.map fun _ => 0).sum = 0 := by
  induction as with
  | nil => rfl
  | cons a as ih => rw [List.map_cons, List.sum_cons, ih]

/-- One part of the list changes. -/
theorem sum_map_set (f : β → Nat) {l : List β} {i : Nat} {x y : β} (h : l[i]? = some x) :
    ((l.set i y).map f).sum + f x = (l.map f).sum + f y := by
  induction l generalizing i with
  | nil => simp at h
  | cons b l ih =>
    cases i with
    | zero =>
      obtain rfl : b = x := by simpa using h
      simp only [List.set_cons_zero, List.map_cons, List.sum_cons]
      omega
    | succ i =>
      have := ih (by simpa using h)
      simp only [List.set_cons_succ, List.map_cons, List.sum_cons]
      omega

end Machine
