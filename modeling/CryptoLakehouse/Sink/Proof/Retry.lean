import Mathlib.Data.Nat.Find
import CryptoLakehouse.Sink.Proof.Commit

/-!
# Retries

How many requests a commit makes. `attempted n` is the world that `n` failed requests leave, and
`Succeeds n` says that the next one would succeed there. The loop makes its requests in order and
stops at the first that succeeds; a reload that fails between two of them ends it as well.

* `commitLoop_ended` — the request a commit ends with, and what the requests before it did.
* `commit_uses_attempts_iff` — the commit is lost only when its attempts are used up, exactly when
  every reload before the first success succeeds.
-/

namespace Sink

open Fallible

/-- The world after `n` failed requests to commit the files, each followed by a reload. -/
def attempted (ops : CommitOps) (files : List DataFile) (w : World) : Nat → World
  | 0 => w
  | n + 1 =>
    let w' := final (commitOnce (ops.commits (n + 1)) files (attempted ops files w n))
    { w' with sink := { w'.sink with table := w'.lake.table } }

/-- The request after `n` failed ones would succeed. -/
def Succeeds (ops : CommitOps) (files : List DataFile) (w : World) (n : Nat) : Prop :=
  succeeded (commitOnce (ops.commits (n + 1)) files (attempted ops files w n)) = true

instance instDecidableSucceeds (ops : CommitOps) (files : List DataFile) (w : World) (n : Nat) :
    Decidable (Succeeds ops files w n) := inferInstanceAs (Decidable (_ = true))

/-- How many requests a commit may make. -/
def World.attempts (w : World) : Nat := max 1 w.sink.cfg.commitRetries

/-- The metadata could be reloaded after each of the first `n` requests. -/
def Reloaded (ops : CommitOps) (n : Nat) : Prop := ∀ m < n, ops.reloads (m + 1) = .ok ()

/-- The loop that may make requests `k` to `last` ends with request `n`: the first that succeeds,
or one after which it gives up. -/
inductive Ended (ops : CommitOps) (files : List DataFile) (w : World) (last : Nat) (n : Nat) :
    EStateM.Result Error World Unit → Prop
  | ok {t : Table} {w' : World}
      (h : commitOnce (ops.commits (n + 1)) files (attempted ops files w n) = .ok t w') :
      Ended ops files w last n (.ok () { w' with sink := { w'.sink with table := t } })
  | error {e e' : Error} {w' : World}
      (h : commitOnce (ops.commits (n + 1)) files (attempted ops files w n) = .error e w')
      (hend : n = last ∨ ops.reloads (n + 1) ≠ .ok ()) :
      Ended ops files w last n (.error e' w')

section
variable {ops : CommitOps} {files : List DataFile} {w w' : World} {n k left : Nat} {e : Error}

theorem succeeds_of_ok {t : Table}
    (h : commitOnce (ops.commits (n + 1)) files (attempted ops files w n) = .ok t w') :
    Succeeds ops files w n := by
  rw [Succeeds, h]
  rfl

theorem not_succeeds_of_error
    (h : commitOnce (ops.commits (n + 1)) files (attempted ops files w n) = .error e w') :
    ¬Succeeds ops files w n := by
  rw [Succeeds, h]
  exact Bool.false_ne_true

theorem attempted_succ
    (h : commitOnce (ops.commits (n + 1)) files (attempted ops files w n) = .error e w') :
    attempted ops files w (n + 1) = { w' with sink := { w'.sink with table := w'.lake.table } } := by
  rw [attempted, h]
  rfl

theorem Ended.of_ok {r : EStateM.Result Error World Unit} {last : Nat} {t : Table}
    (he : Ended ops files w last n r)
    (h : commitOnce (ops.commits (n + 1)) files (attempted ops files w n) = .ok t w') :
    r = .ok () { w' with sink := { w'.sink with table := t } } := by
  cases he with
  | ok h' =>
    rw [h] at h'
    cases h'
    rfl
  | error h' _ =>
    rw [h] at h'
    cases h'

theorem Ended.of_error {r : EStateM.Result Error World Unit} {last : Nat}
    (he : Ended ops files w last n r)
    (h : commitOnce (ops.commits (n + 1)) files (attempted ops files w n) = .error e w') :
    (∃ e', r = .error e' w') ∧ (n = last ∨ ops.reloads (n + 1) ≠ .ok ()) := by
  cases he with
  | ok h' =>
    rw [h] at h'
    cases h'
  | error h' hend =>
    rw [h] at h'
    cases h'
    exact ⟨⟨_, rfl⟩, hend⟩

/-- The loop ends with its next request when that succeeds, is the last, or cannot be followed by
a reload. -/
theorem commitLoop_ends (h : left = 0 ∨ Succeeds ops files w k ∨ ops.reloads (k + 1) ≠ .ok ()) :
    Ended ops files w (k + left) k
      (commitLoop ops files left (k + 1) (attempted ops files w k)) := by
  cases hc : commitOnce (ops.commits (k + 1)) files (attempted ops files w k) with
  | ok t w' =>
    rw [commitLoop_of_done (commitTurn_of_ok hc)]
    exact .ok hc
  | error e w' =>
    have hend : left = 0 ∨ ops.reloads (k + 1) ≠ .ok () :=
      h.imp_right fun h => h.resolve_left (not_succeeds_of_error hc)
    obtain ⟨e', he⟩ := commitTurn_gives_up hend hc
    rw [commitLoop_of_error he]
    exact .error hc (hend.imp_left fun h0 => by rw [h0, Nat.add_zero])

/-- Otherwise it goes on after a reload. -/
theorem commitLoop_goes_on (hs : ¬Succeeds ops files w k) (hr : ops.reloads (k + 1) = .ok ()) :
    commitLoop ops files (left + 1) (k + 1) (attempted ops files w k) =
      commitLoop ops files left (k + 1 + 1) (attempted ops files w (k + 1)) := by
  cases hc : commitOnce (ops.commits (k + 1)) files (attempted ops files w k) with
  | ok t w' => exact absurd (succeeds_of_ok hc) hs
  | error e w' =>
    rw [commitLoop_of_again (commitTurn_again (Nat.succ_ne_zero _) hr hc), ← attempted_succ hc]

/-- **The loop** from request `k` on: it ends with some request `n`, all between have failed, and
their reloads have not. -/
theorem commitLoop_ended (left : Nat) : ∀ k, ∃ n, k ≤ n ∧ n ≤ k + left ∧
    (∀ m, k ≤ m → m < n → ¬Succeeds ops files w m ∧ ops.reloads (m + 1) = .ok ()) ∧
    Ended ops files w (k + left) n
      (commitLoop ops files left (k + 1) (attempted ops files w k)) := by
  induction left with
  | zero =>
    intro k
    exact ⟨k, Nat.le_refl _, Nat.le_refl _, fun m h1 h2 => absurd h2 (Nat.not_lt.2 h1),
      commitLoop_ends (.inl rfl)⟩
  | succ left ih =>
    intro k
    by_cases h : Succeeds ops files w k ∨ ops.reloads (k + 1) ≠ .ok ()
    · exact ⟨k, Nat.le_refl _, Nat.le_add_right _ _, fun m h1 h2 => absurd h2 (Nat.not_lt.2 h1),
        commitLoop_ends (.inr h)⟩
    · obtain ⟨hs, hr⟩ := not_or.1 h
      have hr := not_not.1 hr
      obtain ⟨n, h1, h2, hb, hn⟩ := ih (k + 1)
      refine ⟨n, by omega, by omega, fun m hm hmn => ?_, ?_⟩
      · rcases Nat.eq_or_lt_of_le hm with rfl | hm
        · exact ⟨hs, hr⟩
        · exact hb m hm hmn
      · rw [commitLoop_goes_on hs hr, show k + (left + 1) = k + 1 + left by omega]
        exact hn

/-- **A commit** ends with one of its requests. -/
theorem commit_ended (ops : CommitOps) (w : World) (hne : files ≠ []) : ∃ n < w.attempts,
    (∀ m < n, ¬Succeeds ops files w m) ∧ Reloaded ops n ∧
    Ended ops files w (w.attempts - 1) n (commit ops files w) := by
  rw [commit_eq hne]
  obtain ⟨n, -, hn, hb, he⟩ := @commitLoop_ended ops files w (max w.sink.cfg.commitRetries 1 - 1) 0
  have hw : w.attempts - 1 = 0 + (max w.sink.cfg.commitRetries 1 - 1) := by
    rw [World.attempts]
    omega
  refine ⟨n, ?_, fun m hm => (hb m (Nat.zero_le _) hm).1,
    fun m hm => (hb m (Nat.zero_le _) hm).2, ?_⟩
  · rw [World.attempts]
    omega
  · rw [hw]
    exact he

end

/-! ## Using the attempts up -/

/-- A commit that gives up only when its attempts are used up, and stops at its first success. -/
structure UsesAttempts (ops : CommitOps) (files : List DataFile) (w : World) : Prop where
  /-- It succeeds when one of its requests would. -/
  ok_iff : succeeded (commit ops files w) = true ↔ ∃ n < w.attempts, Succeeds ops files w n
  /-- Then the first that does is its last, and the sink has that request's table. -/
  stops : ∀ w', commit ops files w = .ok () w' → ∃ n < w.attempts,
    (∀ m < n, ¬Succeeds ops files w m) ∧ ∃ t w₁,
      commitOnce (ops.commits (n + 1)) files (attempted ops files w n) = .ok t w₁ ∧
      w' = { w₁ with sink := { w₁.sink with table := t } }
  /-- Otherwise none of the requests it has made did. -/
  failed : ∀ e w', commit ops files w = .error e w' → ∃ n < w.attempts,
    (∀ m ≤ n, ¬Succeeds ops files w m) ∧
      w' = final (commitOnce (ops.commits (n + 1)) files (attempted ops files w n))

section
variable {ops : CommitOps} {files : List DataFile} {w : World}

theorem commit_stops (hne : files ≠ []) {w' : World} (h : commit ops files w = .ok () w') :
    ∃ n < w.attempts, (∀ m < n, ¬Succeeds ops files w m) ∧ ∃ t w₁,
      commitOnce (ops.commits (n + 1)) files (attempted ops files w n) = .ok t w₁ ∧
      w' = { w₁ with sink := { w₁.sink with table := t } } := by
  obtain ⟨n, hn, hf, -, he⟩ := commit_ended ops w hne
  rw [h] at he
  cases he with
  | ok hc => exact ⟨n, hn, hf, _, _, hc, rfl⟩

theorem commit_failed (hne : files ≠ []) {e : Error} {w' : World}
    (h : commit ops files w = .error e w') : ∃ n < w.attempts,
    (∀ m ≤ n, ¬Succeeds ops files w m) ∧
      w' = final (commitOnce (ops.commits (n + 1)) files (attempted ops files w n)) := by
  obtain ⟨n, hn, hf, -, he⟩ := commit_ended ops w hne
  rw [h] at he
  cases he with
  | error hc hend =>
    refine ⟨n, hn, fun m hm => ?_, by rw [hc]; rfl⟩
    rcases Nat.eq_or_lt_of_le hm with rfl | hm
    · exact not_succeeds_of_error hc
    · exact hf m hm

/-- A commit that succeeds ends with the first request that would, after reloads that succeeded. -/
theorem reloaded_of_succeeded (hne : files ≠ []) (hok : succeeded (commit ops files w) = true)
    {n : Nat} (hs : Succeeds ops files w n) (hfirst : ∀ m < n, ¬Succeeds ops files w m) :
    Reloaded ops n := by
  obtain ⟨l, -, hf, hr, he⟩ := commit_ended ops w hne
  obtain ⟨u, w', hc⟩ := succeeded_iff.1 hok
  rw [hc] at he
  cases he with
  | ok hl =>
    have hln : l = n := by
      rcases Nat.lt_trichotomy l n with h | h | h
      · exact absurd (succeeds_of_ok hl) (hfirst l h)
      · exact h
      · exact absurd hs (hf n h)
    exact hln ▸ hr

/-- With a request that would succeed, and no reload that fails before the first of them, a commit
succeeds. -/
theorem succeeded_of_reloaded (hne : files ≠ []) {n : Nat} (hn : n < w.attempts)
    (hs : Succeeds ops files w n) (hr : Reloaded ops n) : succeeded (commit ops files w) = true := by
  obtain ⟨l, -, hf, -, he⟩ := commit_ended ops w hne
  cases hc : commit ops files w with
  | ok u w' => rfl
  | error e w' =>
    rw [hc] at he
    cases he with
    | error hl hend =>
      -- It gave up before the request that would succeed, so for a reload.
      have hln : l < n := by
        rcases Nat.lt_trichotomy l n with h | h | h
        · exact h
        · exact absurd hs (h ▸ not_succeeds_of_error hl)
        · exact absurd hs (hf n h)
      exact absurd (hr l hln) (hend.resolve_left (by omega))

end

/-- **When a commit uses its attempts up**: exactly when every reload before the first request that
would succeed does succeed. -/
theorem commit_uses_attempts_iff (ops : CommitOps) {files : List DataFile} (w : World)
    (hne : files ≠ []) : UsesAttempts ops files w ↔
    ∀ n < w.attempts, Succeeds ops files w n → (∀ m < n, ¬Succeeds ops files w m) →
      Reloaded ops n := by
  refine ⟨fun h n hn hs hfirst => ?_, fun h => ?_⟩
  · exact reloaded_of_succeeded hne (h.ok_iff.2 ⟨n, hn, hs⟩) hs hfirst
  · refine ⟨⟨fun hok => ?_, fun hx => ?_⟩, fun w' => commit_stops hne, fun e w' => commit_failed hne⟩
    · obtain ⟨u, w', hc⟩ := succeeded_iff.1 hok
      obtain ⟨n, hn, -, t, w₁, hone, -⟩ := commit_stops hne hc
      exact ⟨n, hn, succeeds_of_ok hone⟩
    · obtain ⟨hn, hs⟩ := Nat.find_spec hx
      have hfirst : ∀ m < Nat.find hx, ¬Succeeds ops files w m := fun m hm hs =>
        Nat.find_min hx hm ⟨Nat.lt_trans hm hn, hs⟩
      exact succeeded_of_reloaded hne hn hs (h _ hn hs hfirst)

/-- With three attempts: the first request is refused, the metadata is reloaded, and the second
request is applied. -/
theorem commit_uses_attempts_iff_applied :
    let ops : CommitOps := ⟨.ok (), .rowByRow, fun n => if n = 1 then .refused "503" else .applied,
      fun _ => .ok ()⟩
    let files : List DataFile := [⟨⟨0, 0⟩, ⟨none, none⟩, [], 1⟩]
    let w := connect "trades.trades" ⟨3⟩ .created
    UsesAttempts ops files w ∧ ¬Succeeds ops files w 0 ∧ Succeeds ops files w 1 := by
  intro ops files w
  have h0 : ¬Succeeds ops files w 0 := by decide +kernel
  have h1 : Succeeds ops files w 1 := by decide +kernel
  exact ⟨(commit_uses_attempts_iff ops w (List.cons_ne_nil _ _)).2 fun _ _ _ _ _ _ => rfl, h0, h1⟩

/-- With three attempts: the first request is refused, the reload after it fails, and the second
request would be applied. The commit is lost. -/
theorem reload_uses_attempts_up :
    let ops : CommitOps := ⟨.ok (), .rowByRow, fun n => if n = 1 then .refused "503" else .applied,
      fun _ => .error "503"⟩
    let files : List DataFile := [⟨⟨0, 0⟩, ⟨none, none⟩, [], 1⟩]
    let w := connect "trades.trades" ⟨3⟩ .created
    succeeded (commit ops files w) = false ∧ 1 < w.attempts ∧ Succeeds ops files w 1 ∧
      ¬UsesAttempts ops files w := by
  intro ops files w
  have hs : succeeded (commit ops files w) = false := by decide +kernel
  have h1 : 1 < w.attempts := by decide
  have h2 : Succeeds ops files w 1 := by decide +kernel
  exact ⟨hs, h1, h2, fun h => Bool.false_ne_true (hs ▸ h.ok_iff.2 ⟨1, h1, h2⟩)⟩

/-! ## How a commit ends -/

/-- Request `n` is made, and none before it has reached the table: each was refused, and followed by
a reload. -/
def Reaches (ops : CommitOps) (w : World) (n : Nat) : Prop :=
  n < w.attempts ∧ (∀ m < n, ∃ why, ops.commits (m + 1) = .refused why) ∧ Reloaded ops n

/-- The commit is applied. -/
def Lands (ops : CommitOps) (w : World) : Prop :=
  ∃ n, Reaches ops w n ∧ ops.commits (n + 1) = .applied

/-- The commit is applied, and its answer lost. -/
def LandsUnseen (ops : CommitOps) (w : World) : Prop :=
  ∃ n, Reaches ops w n ∧ ∃ why, ops.commits (n + 1) = .lost why

section
variable {ops : CommitOps} {files : List DataFile} {w w' : World} {n m : Nat}

instance instDecidableRefused (reply : CommitReply) : Decidable (∃ why, reply = .refused why) :=
  match reply with
  | .applied => isFalse (by simp)
  | .refused why => isTrue ⟨why, rfl⟩
  | .lost _ => isFalse (by simp)

instance instDecidableLost (reply : CommitReply) : Decidable (∃ why, reply = .lost why) :=
  match reply with
  | .applied => isFalse (by simp)
  | .refused _ => isFalse (by simp)
  | .lost why => isTrue ⟨why, rfl⟩

instance instDecidableReaches (ops : CommitOps) (w : World) (n : Nat) :
    Decidable (Reaches ops w n) :=
  inferInstanceAs (Decidable (_ ∧ (∀ m < n, _) ∧ ∀ m < n, _))

instance instDecidableLands (ops : CommitOps) (w : World) : Decidable (Lands ops w) :=
  decidable_of_iff (∃ n < w.attempts, Reaches ops w n ∧ ops.commits (n + 1) = .applied)
    (exists_congr fun _ => ⟨fun h => h.2, fun h => ⟨h.1.1, h⟩⟩)

instance instDecidableLandsUnseen (ops : CommitOps) (w : World) :
    Decidable (LandsUnseen ops w) :=
  decidable_of_iff (∃ n < w.attempts, Reaches ops w n ∧ ∃ why, ops.commits (n + 1) = .lost why)
    (exists_congr fun _ => ⟨fun h => h.2, fun h => ⟨h.1.1, h⟩⟩)

/-- Only one request that is made is not refused. -/
theorem Reaches.unique (hn : Reaches ops w n) (hm : Reaches ops w m)
    (hn' : ∀ why, ops.commits (n + 1) ≠ .refused why)
    (hm' : ∀ why, ops.commits (m + 1) ≠ .refused why) : n = m := by
  rcases Nat.lt_trichotomy n m with h | h | h
  · obtain ⟨why, hw⟩ := hm.2.1 n h
    exact absurd hw (hn' why)
  · exact h
  · obtain ⟨why, hw⟩ := hn.2.1 m h
    exact absurd hw (hm' why)

/-- Failed requests leave the table as it was when they were refused; one whose answer was lost
leaves it with the files. -/
theorem attempted_lake (hne : files ≠ []) (hu : Unreferenced w.lake files)
    (h : ∀ m < n, ¬Succeeds ops files w m) :
    (attempted ops files w n).lake = w.lake ∧ (∀ m < n, ∃ why, ops.commits (m + 1) = .refused why) ∨
    (attempted ops files w n).lake = w.lake.append files ∧
      ∃ m < n, (∀ k < m, ∃ why, ops.commits (k + 1) = .refused why) ∧
        ∃ why, ops.commits (m + 1) = .lost why := by
  induction n with
  | zero => exact .inl ⟨rfl, fun m hm => absurd hm (Nat.not_lt_zero m)⟩
  | succ n ih =>
    have hlake : (attempted ops files w (n + 1)).lake =
        (final (commitOnce (ops.commits (n + 1)) files (attempted ops files w n))).lake := rfl
    rw [hlake]
    rcases ih fun m hm => h m (Nat.lt_succ_of_lt hm) with ⟨hl, hr⟩ | ⟨hl, m, hm, hr, hlost⟩
    · have hu' : Unreferenced (attempted ops files w n).lake files := by rwa [hl]
      cases hc : ops.commits (n + 1) with
      | applied =>
        have := h n (Nat.lt_succ_self n)
        rw [Succeeds, hc, commitOnce_applied hu'] at this
        exact absurd rfl this
      | refused why =>
        obtain ⟨e, he⟩ := @commitOnce_refused files (attempted ops files w n) why
        refine .inl ⟨by rw [he]; exact hl, fun m hm => ?_⟩
        rcases Nat.lt_succ_iff_lt_or_eq.1 hm with hm | rfl
        · exact hr m hm
        · exact ⟨why, hc⟩
      | lost why =>
        obtain ⟨e, he⟩ := @commitOnce_lost files (attempted ops files w n) why hu'
        refine .inr ⟨by rw [he, final_error, hl], n, Nat.lt_succ_self n, hr, why, hc⟩
    · have hu' : ¬Unreferenced (attempted ops files w n).lake files := by
        rw [hl]
        exact not_unreferenced_append hne
      obtain ⟨e, he⟩ := @commitOnce_referenced (ops.commits (n + 1)) files _ hu'
      exact .inr ⟨by rw [he]; exact hl, m, Nat.lt_succ_of_lt hm, hr, hlost⟩

/-- An applied request was not lost. -/
theorem not_landsUnseen_of_applied (hn : Reaches ops w n) (hc : ops.commits (n + 1) = .applied) :
    ¬LandsUnseen ops w := by
  intro h
  obtain ⟨k, hk, why, hw⟩ := h
  obtain rfl := hn.unique hk (by simp [hc]) (by simp [hw])
  rw [hc] at hw
  cases hw

/-- When every request that is made is refused, none reaches the table. -/
theorem not_lands_of_refused (h : ∀ k, Reaches ops w k → ∃ why, ops.commits (k + 1) = .refused why) :
    ¬Lands ops w ∧ ¬LandsUnseen ops w := by
  refine ⟨fun hl => ?_, fun hl => ?_⟩
  · obtain ⟨k, hk, ha⟩ := hl
    obtain ⟨why, hw⟩ := h k hk
    rw [ha] at hw
    cases hw
  · obtain ⟨k, hk, why, ha⟩ := hl
    obtain ⟨why', hw⟩ := h k hk
    rw [ha] at hw
    cases hw

/-- **How a commit of new files ends**: applied and reported, applied and not reported, or not
applied. -/
theorem commit_outcome (ops : CommitOps) (hne : files ≠ []) (hu : Unreferenced w.lake files) :
    Lands ops w ∧ ¬LandsUnseen ops w ∧ succeeded (commit ops files w) = true ∧
      (final (commit ops files w)).lake = w.lake.append files ∨
    LandsUnseen ops w ∧ succeeded (commit ops files w) = false ∧
      (final (commit ops files w)).lake = w.lake.append files ∨
    ¬Lands ops w ∧ ¬LandsUnseen ops w ∧ succeeded (commit ops files w) = false ∧
      (final (commit ops files w)).lake = w.lake := by
  obtain ⟨n, hn, hf, hr, he⟩ := commit_ended ops w hne
  rcases attempted_lake hne hu hf with ⟨hl, href⟩ | ⟨hl, m, hm, href, why, hlost⟩
  · -- The last request is the first that may reach the table.
    have hreach : Reaches ops w n := ⟨hn, href, hr⟩
    have hu' : Unreferenced (attempted ops files w n).lake files := by rwa [hl]
    cases hc : ops.commits (n + 1) with
    | applied =>
      rw [he.of_ok (hc ▸ commitOnce_applied hu')]
      refine .inl ⟨⟨n, hreach, hc⟩, not_landsUnseen_of_applied hreach hc, rfl, ?_⟩
      rw [final_ok, hl]
    | refused why =>
      obtain ⟨e, hce⟩ := @commitOnce_refused files (attempted ops files w n) why
      obtain ⟨⟨e', hr'⟩, hend⟩ := he.of_error (hc ▸ hce)
      -- No request follows, and those before were refused.
      obtain ⟨hno, hno'⟩ := @not_lands_of_refused ops w fun k hk => by
        rcases Nat.lt_trichotomy k n with h | rfl | h
        · exact href k h
        · exact ⟨why, hc⟩
        · have hkn := hk.1
          exact absurd (hk.2.2 n h) (hend.resolve_left (by omega))
      rw [hr']
      exact .inr (.inr ⟨hno, hno', rfl, hl⟩)
    | lost why =>
      obtain ⟨e, hce⟩ := @commitOnce_lost files (attempted ops files w n) why hu'
      obtain ⟨⟨e', hr'⟩, -⟩ := he.of_error (hc ▸ hce)
      rw [hr']
      refine .inr (.inl ⟨⟨n, hreach, why, hc⟩, rfl, ?_⟩)
      rw [final_error, hl]
  · -- An earlier one has reached it, and this one was refused for its files.
    have hu' : ¬Unreferenced (attempted ops files w n).lake files := by
      rw [hl]
      exact not_unreferenced_append hne
    obtain ⟨e, hce⟩ := @commitOnce_referenced (ops.commits (n + 1)) files _ hu'
    obtain ⟨⟨e', hr'⟩, -⟩ := he.of_error hce
    rw [hr']
    exact .inr (.inl ⟨⟨m, ⟨Nat.lt_trans hm hn, href, fun k hk => hr k (Nat.lt_trans hk hm)⟩,
      why, hlost⟩, rfl, hl⟩)

end

end Sink
