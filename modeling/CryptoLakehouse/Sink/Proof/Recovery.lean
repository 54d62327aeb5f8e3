import CryptoLakehouse.Sink.Proof.WriteBatch

/-!
# A sink after a failed write

Which failures of one `write_batch` the next one survives. A failed commit or a failed parquet
write leaves the session as it was; a failing operation of the probe or the anti-join leaves
`incoming` registered, since `deregister_table` is only reached on the last line of
`deduped_batch`, and from then on every `register_batch` fails.

* `writeBatch_succeeds_iff` — a write with nothing failing succeeds exactly when no earlier write
  had a failing probe operation.
-/

namespace Sink

open Trades Fallible

/-- One `write_batch` call. -/
structure Call where
  ops : WriteOps
  rows : List TradeEvent

/-- The calls in order, whatever becomes of each. -/
def runCalls (w : World) (calls : List Call) : World :=
  calls.foldl (fun w c => final (writeBatch c.ops c.rows w)) w

/-- No operation of the call fails. -/
structure WriteOps.AllOk (ops : WriteOps) : Prop where
  probe : ops.ProbeOk
  writeRecords : ops.writeRecords = .ok ()
  commits : ∀ n, ops.commits n = .applied
  reloads : ∀ n, ops.reloads n = .ok ()

/-- A call that leaves an idle session idle. -/
def Call.Clean (c : Call) : Prop := c.rows ≠ [] → c.ops.ProbeOk

section
variable {w : World} {ops : WriteOps} {rows : List TradeEvent} {calls : List Call} {c : Call}

theorem opened_runCalls (calls : List Call) (h : Opened Trades.schema w) :
    Opened Trades.schema (runCalls w calls) := by
  induction calls generalizing w with
  | nil => exact h
  | cons c calls ih => exact ih (writeBatch_spec h c.ops c.rows).opened

/-- The session after a write on an idle session. -/
theorem writeBatch_ctx (h : Opened Trades.schema w) (hw : w.sink.ctx = .idle) :
    (final (writeBatch c.ops c.rows w)).sink.ctx = .idle ↔ c.Clean := by
  by_cases hne : c.rows = []
  · rw [hne, writeBatch_nil]
    exact ⟨fun _ hn => absurd hne hn, fun _ => hw⟩
  by_cases hp : c.ops.ProbeOk
  · refine ⟨fun _ _ => hp, fun _ => ?_⟩
    cases hr : c.ops.writeRecords with
    | error why =>
      obtain ⟨e, n, he⟩ := writeFiles_orphans c.rows h hw hp hr
      rw [writeBatch_of_error hne he]
      exact hw
    | ok u =>
      obtain ⟨files, probe, hf, -⟩ := writeFiles_ok c.rows h hw hp hr
      rw [(writeBatch_of_files hne hf).1]
      by_cases hfe : files = []
      · subst hfe
        exact hw
      · rw [(commit_spec _ _ hfe).sink]
        exact hw
  · obtain ⟨e, batch, he⟩ := writeFiles_failed c.rows h hw hp
    rw [writeBatch_of_error hne he]
    exact ⟨fun hc => absurd hc Session.busy_ne_idle, fun hc => absurd (hc hne) hp⟩

/-- A left-behind `incoming` stays. -/
theorem writeBatch_busy (h : Opened Trades.schema w) (hw : w.sink.ctx ≠ .idle) :
    (final (writeBatch ops rows w)).sink.ctx ≠ .idle := by
  by_cases hne : rows = []
  · rwa [hne, writeBatch_nil]
  · obtain ⟨batch, hb⟩ := h.session.resolve_left hw
    obtain ⟨e, he⟩ := writeFiles_taken ops rows h hb
    rwa [writeBatch_of_error hne he]

/-- The session is idle after calls that all were clean, and only then. -/
theorem runCalls_idle_iff (h : Opened Trades.schema w) :
    (runCalls w calls).sink.ctx = .idle ↔ w.sink.ctx = .idle ∧ ∀ c ∈ calls, c.Clean := by
  induction calls generalizing w with
  | nil => simp [runCalls]
  | cons c calls ih =>
    have hrun : runCalls w (c :: calls) = runCalls (final (writeBatch c.ops c.rows w)) calls := rfl
    rw [hrun, ih (writeBatch_spec h c.ops c.rows).opened, List.forall_mem_cons]
    by_cases hw : w.sink.ctx = .idle
    · rw [writeBatch_ctx h hw, and_iff_right hw]
    · exact ⟨fun hc => absurd hc.1 (writeBatch_busy h hw), fun hc => absurd hc.1 hw⟩

/-- On an idle session a write with nothing failing succeeds. -/
theorem writeBatch_ok (h : Opened Trades.schema w) (hw : w.sink.ctx = .idle) (hok : ops.AllOk) :
    succeeded (writeBatch ops rows w) = true := by
  by_cases hne : rows = []
  · rw [hne, writeBatch_nil]
    rfl
  · obtain ⟨files, probe, hf, hn, -⟩ :=
      writeFiles_ok rows h hw hok.probe hok.writeRecords
    rw [(writeBatch_of_files hne hf).2]
    by_cases hfe : files = []
    · rw [hfe, commit_nil]
      rfl
    · obtain ⟨w', hc⟩ := commit_ok hfe hn.unreferenced (hok.commits 1)
      rw [hc]
      rfl

/-- On a busy session no write succeeds. -/
theorem writeBatch_error (h : Opened Trades.schema w) (hw : w.sink.ctx ≠ .idle) (hne : rows ≠ []) :
    succeeded (writeBatch ops rows w) = false := by
  obtain ⟨batch, hb⟩ := h.session.resolve_left hw
  obtain ⟨e, he⟩ := writeFiles_taken ops rows h hb
  rw [writeBatch_of_error hne he]
  rfl

end

section
variable {ident : String} {cfg : IcebergConfig} {lake : Lake}

/-- **What a sink survives**: after any calls, the session is a new sink's, and a write with nothing
failing succeeds, exactly when no earlier write of rows had a failing operation between
`register_batch` and `deregister_table`. -/
theorem writeBatch_succeeds_iff (hs : lake.table.schema = Trades.schema) (calls : List Call) :
    ((runCalls (connect ident cfg lake) calls).sink.ctx = (connect ident cfg lake).sink.ctx ↔
      ∀ c ∈ calls, c.rows ≠ [] → c.ops.ProbeOk) ∧
    ∀ (ops : WriteOps) (rows : List TradeEvent), ops.AllOk → rows ≠ [] →
      (succeeded (writeBatch ops rows (runCalls (connect ident cfg lake) calls)) = true ↔
        ∀ c ∈ calls, c.rows ≠ [] → c.ops.ProbeOk) := by
  have h := opened_runCalls calls (opened_connect ident cfg hs)
  have hidle : (runCalls (connect ident cfg lake) calls).sink.ctx = .idle ↔ ∀ c ∈ calls, c.Clean :=
    (runCalls_idle_iff (opened_connect ident cfg hs)).trans (and_iff_right rfl)
  refine ⟨hidle, fun ops rows hok hne => .trans ⟨fun hsucc => ?_, fun hi => ?_⟩ hidle⟩
  · by_contra hi
    rw [writeBatch_error h hi hne] at hsucc
    exact Bool.false_ne_true hsucc
  · exact writeBatch_ok h hi hok

end

theorem WriteOps.allOk_allOk : WriteOps.allOk.AllOk where
  probe := WriteOps.probeOk_allOk
  writeRecords := rfl
  commits _ := rfl
  reloads _ := rfl

/-- After a write whose commit was refused in every attempt. -/
theorem writeBatch_succeeds_iff_refused :
    succeeded (writeBatch .allOk [btcTrade 1 1000] (runCalls (connect "trades.trades" ⟨2⟩ .created)
      [⟨{ WriteOps.allOk with commits := fun _ => .refused "conflict" }, [btcTrade 1 1000]⟩])) =
      true :=
  ((writeBatch_succeeds_iff rfl _).2 _ _ WriteOps.allOk_allOk (List.cons_ne_nil _ _)).2
    fun _ hc _ => List.mem_singleton.1 hc ▸ WriteOps.allOk_allOk.probe

/-- One failed anti-join, and the next write fails with nothing failing. -/
theorem writeBatch_fails_after_collect : WriteOps.allOk.AllOk ∧
    succeeded (writeBatch .allOk [btcTrade 1 1000] (runCalls (connect "trades.trades" ⟨2⟩ .created)
      [⟨{ WriteOps.allOk with collect := .error "Resources exhausted" }, [btcTrade 1 1000]⟩])) =
      false :=
  ⟨WriteOps.allOk_allOk, by decide +kernel⟩

end Sink
