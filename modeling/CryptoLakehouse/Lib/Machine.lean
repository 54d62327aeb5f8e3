import Mathlib.Logic.Basic

/-!
# Machines

A machine is a partial step function `step : σ → α → Option σ` over states `σ` and actions `α`
(`none`: the action is not enabled). `run step s as` takes the actions in order. An invariant
that every step keeps holds after every run (`run_inv`); `Always` and `EachStep` speak about all
the states and all the steps along one run.
-/

namespace Machine

variable {σ α β : Type*}

/-- The state after the actions, when each is enabled in its turn. -/
def run (step : σ → α → Option σ) : σ → List α → Option σ
  | s, [] => some s
  | s, a :: as => (step s a).bind fun s' => run step s' as

section
variable {step : σ → α → Option σ} {s s' : σ} {a : α} {as bs : List α}

@[simp] theorem run_nil : run step s [] = some s := rfl

theorem run_cons : run step s (a :: as) = some s' ↔
    ∃ m, step s a = some m ∧ run step m as = some s' := Option.bind_eq_some_iff

theorem run_append : run step s (as ++ bs) = some s' ↔
    ∃ m, run step s as = some m ∧ run step m bs = some s' := by
  induction as generalizing s with
  | nil => simp
  | cons a as ih =>
    simp only [List.cons_append, run_cons, ih]
    refine ⟨fun hx => ?_, fun hx => ?_⟩
    · obtain ⟨m, hm, m', hm', h⟩ := hx
      exact ⟨m', ⟨m, hm, hm'⟩, h⟩
    · obtain ⟨m', ⟨m, hm, hm'⟩, h⟩ := hx
      exact ⟨m, hm, m', hm', h⟩

/-- What every step keeps holds after every run. -/
theorem run_inv {I : σ → Prop} (hstep : ∀ s a s', I s → step s a = some s' → I s') (hs : I s)
    (h : run step s as = some s') : I s' := by
  induction as generalizing s with
  | nil => cases h; exact hs
  | cons a as ih =>
    obtain ⟨m, hm, hr⟩ := run_cons.1 h
    exact ih (hstep s a m hs hm) hr

/-- `run_inv` for runs whose actions are restricted. -/
theorem run_inv_of {I : σ → Prop} {A : α → Prop}
    (hstep : ∀ s a s', A a → I s → step s a = some s' → I s') (ha : ∀ a ∈ as, A a) (hs : I s)
    (h : run step s as = some s') : I s' := by
  induction as generalizing s with
  | nil => cases h; exact hs
  | cons a as ih =>
    obtain ⟨m, hm, hr⟩ := run_cons.1 h
    exact ih (fun b hb => ha b (List.mem_cons_of_mem _ hb))
      (hstep s a m (ha a List.mem_cons_self) hs hm) hr

end

/-! ## Records -/

/-- What the steps of a run put out, in their order. -/
def outputs (step : σ → α → Option σ) (out : α → σ → List β) : σ → List α → List β
  | _, [] => []
  | s, a :: as => (step s a).elim [] fun s' => out a s' ++ outputs step out s' as

/-- The machine with a record of what its steps have put out. -/
def recording (step : σ → α → Option σ) (out : α → σ → List β) (x : σ × List β) (a : α) :
    Option (σ × List β) :=
  (step x.1 a).map fun s' => (s', x.2 ++ out a s')

/-- The machine with a record takes the same runs. -/
theorem run_recording {step : σ → α → Option σ} {s s' : σ} {as : List α} (out : α → σ → List β)
    (h : run step s as = some s') (record : List β) :
    run (recording step out) (s, record) as = some (s', record ++ outputs step out s as) := by
  induction as generalizing s record with
  | nil =>
    cases h
    rw [outputs, List.append_nil]
    rfl
  | cons a as ih =>
    obtain ⟨m, hm, hr⟩ := run_cons.1 h
    refine run_cons.2 ⟨(m, record ++ out a m), by rw [recording, hm, Option.map_some], ?_⟩
    rw [ih hr, outputs, hm, Option.elim_some, List.append_assoc]

/-! ## Along one run -/

/-- `P` holds in every state of the run. -/
def Always (step : σ → α → Option σ) (P : σ → Prop) : σ → List α → Prop
  | s, [] => P s
  | s, a :: as => P s ∧ ∀ s', step s a = some s' → Always step P s' as

theorem Always.head {step : σ → α → Option σ} {P : σ → Prop} {s : σ} {as : List α}
    (h : Always step P s as) : P s := by
  cases as with
  | nil => exact h
  | cons a as => exact h.1

/-- What always holds holds in the last state. -/
theorem Always.last {step : σ → α → Option σ} {P : σ → Prop} {s s' : σ} {as : List α}
    (h : Always step P s as) (hr : run step s as = some s') : P s' := by
  induction as generalizing s with
  | nil =>
    cases hr
    exact h
  | cons a as ih =>
    obtain ⟨m, hm, hr⟩ := run_cons.1 hr
    exact ih (h.2 m hm) hr

/-- What an invariant implies always holds. -/
theorem always_of_inv {step : σ → α → Option σ} {I P : σ → Prop}
    (hstep : ∀ s a s', I s → step s a = some s' → I s') (hp : ∀ s, I s → P s) {s : σ} (hs : I s)
    (as : List α) : Always step P s as := by
  induction as generalizing s with
  | nil => exact hp s hs
  | cons a as ih => exact ⟨hp s hs, fun m hm => ih (hstep s a m hs hm)⟩

/-- `Q` holds of every step of the run. -/
def EachStep (step : σ → α → Option σ) (Q : σ → α → Prop) : σ → List α → Prop
  | _, [] => True
  | s, a :: as => Q s a ∧ ∀ s', step s a = some s' → EachStep step Q s' as

/-- What an invariant implies of the steps holds of each of them. -/
theorem eachStep_of_inv {step : σ → α → Option σ} {I : σ → Prop} {Q : σ → α → Prop}
    (hstep : ∀ s a s', I s → step s a = some s' → I s') (hq : ∀ s a, I s → Q s a) {s : σ}
    (hs : I s) (as : List α) : EachStep step Q s as := by
  induction as generalizing s with
  | nil => trivial
  | cons a as ih => exact ⟨hq s a hs, fun m hm => ih (hstep s a m hs hm)⟩

/-- The steps of a run can be checked one by one. -/
instance instDecidableEachStep (step : σ → α → Option σ) (Q : σ → α → Prop)
    [∀ s a, Decidable (Q s a)] : ∀ s as, Decidable (EachStep step Q s as)
  | _, [] => isTrue trivial
  | s, a :: as =>
    match h : step s a with
    | none => decidable_of_iff (Q s a) (by simp [EachStep, h])
    | some m =>
      haveI := instDecidableEachStep step Q m as
      decidable_of_iff (Q s a ∧ EachStep step Q m as) (by simp [EachStep, h])

/-- What an invariant implies holds along a run whose steps meet the condition under which they keep
the invariant. -/
theorem always_of_eachStep {step : σ → α → Option σ} {I P : σ → Prop} {Q : σ → α → Prop}
    (hstep : ∀ s a s', I s → Q s a → step s a = some s' → I s') (hp : ∀ s, I s → P s) {s : σ}
    {as : List α} (hs : I s) (h : EachStep step Q s as) : Always step P s as := by
  induction as generalizing s with
  | nil => exact hp s hs
  | cons a as ih => exact ⟨hp s hs, fun m hm => ih (hstep s a m hs h.1 hm) (h.2 m hm)⟩

/-- Properties of steps that agree under an invariant hold along the same runs. -/
theorem eachStep_congr {step : σ → α → Option σ} {I : σ → Prop} {Q Q' : σ → α → Prop}
    (hI : ∀ s a s', I s → step s a = some s' → I s') (hQ : ∀ s a, I s → (Q s a ↔ Q' s a)) {s : σ}
    (hs : I s) (as : List α) : EachStep step Q s as ↔ EachStep step Q' s as := by
  induction as generalizing s with
  | nil => exact Iff.rfl
  | cons a as ih =>
    exact and_congr (hQ s a hs) (forall_congr' fun m => forall_congr' fun hm => ih (hI s a m hs hm))

/-- Under an invariant, a property of states that a step keeps exactly when `Q` holds of the step
holds along a run exactly when `Q` holds of each of its steps. -/
theorem always_iff_eachStep {step : σ → α → Option σ} {I P : σ → Prop} {Q : σ → α → Prop}
    {A : α → Prop} (hI : ∀ s a s', A a → I s → P s → step s a = some s' → P s' → I s')
    (hQ : ∀ s a s', A a → I s → P s → step s a = some s' → (P s' ↔ Q s a))
    (hN : ∀ s a, step s a = none → Q s a) {s : σ} {as : List α} (ha : ∀ a ∈ as, A a) (hs : I s)
    (hp : P s) : Always step P s as ↔ EachStep step Q s as := by
  induction as generalizing s with
  | nil => simp [Always, EachStep, hp]
  | cons a as ih =>
    have ha' : ∀ b ∈ as, A b := fun b hb => ha b (List.mem_cons_of_mem _ hb)
    have hA := ha a List.mem_cons_self
    simp only [Always, EachStep]
    cases hst : step s a with
    | none => simp [hp, hN s a hst]
    | some m =>
      have hq := hQ s a m hA hs hp hst
      refine ⟨fun hx => ?_, fun hx => ?_⟩
      · obtain ⟨-, h⟩ := hx
        have hm := h m rfl
        have hpm : P m := hm.head
        refine ⟨hq.1 hpm, fun s' hs' => ?_⟩
        cases hs'
        exact (ih ha' (hI s a m hA hs hp hst hpm) hpm).1 hm
      · obtain ⟨h1, h2⟩ := hx
        have hpm := hq.2 h1
        refine ⟨hp, fun s' hs' => ?_⟩
        cases hs'
        exact (ih ha' (hI s a m hA hs hp hst hpm) hpm).2 (h2 m rfl)

end Machine
