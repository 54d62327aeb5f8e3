import CryptoLakehouse.Batcher.Proof.AckSafety
import CryptoLakehouse.Sink.Proof.CoBatch
import CryptoLakehouse.Sink.Proof.Retry

/-!
# The counters and the table

`Stats` counts what `write_batch` returned; `Tally` is what the run's commits did to the table. A
batch counts with all its rows and as one snapshot, also when some or all of them were stored
already, and a commit whose answer was lost counts as nothing (`Tallies`).

* `writeBatch_tallies_iff` — when one write returns what it did to the table.
* `counted_iff` — the counters equal the tally all along a run exactly when each of its writes does
  that.
-/

namespace Batcher

open Trades Sink Fallible Machine

/-! ## One write -/

/-- The files of a batch get written: no operation before the commit fails, and no earlier batch is
registered. -/
def WritesFiles (ops : WriteOps) (w : World) : Prop :=
  "incoming" ∉ w.sink.ctx.names ∧ ops.ProbeOk ∧ ops.writeRecords = .ok ()

/-- The write counts what it does: if its files get written, it has a row that the table does not
hold in its brackets, no answer of its commit is lost, and when it lands all its rows are such. -/
def Tallies (ops : WriteOps) (rows : List TradeEvent) (w : World) : Prop :=
  WritesFiles ops w → (∃ e ∈ rows, ¬InSight w.lake.rows rows e) ∧
    ¬LandsUnseen ops.toCommitOps w ∧
    (Lands ops.toCommitOps w → ∀ e ∈ rows, ¬InSight w.lake.rows rows e)

instance instDecidableTallies (ops : WriteOps) (rows : List TradeEvent) (w : World) :
    Decidable (Tallies ops rows w) :=
  inferInstanceAs (Decidable ((_ ∧ _ ∧ _) → _ ∧ _ ∧ (_ → _)))

/-- What a write has returned is what it has done to the table. -/
def Exact (w : World) (r : EStateM.Result Error World WriteStats) : Prop :=
  match r with
  | .ok written w' => w'.lake.rows.length = w.lake.rows.length + written.rows ∧
      w'.lake.table.snapshots = w.lake.table.snapshots + 1
  | .error _ w' => w'.lake.rows.length = w.lake.rows.length ∧
      w'.lake.table.snapshots = w.lake.table.snapshots

section
variable {ops : WriteOps} {rows : List TradeEvent} {w : World}

theorem newRows_eq_nil : w.newRows rows = [] ↔ ¬∃ e ∈ rows, ¬InSight w.lake.rows rows e := by
  rw [World.newRows, dedupRows_ofEvent, List.map_eq_nil_iff, List.filter_eq_nil_iff]
  simp

theorem length_newRows : (w.newRows rows).length = rows.length ↔
    ∀ e ∈ rows, ¬InSight w.lake.rows rows e := by
  rw [World.newRows, dedupRows_ofEvent, List.length_map, List.length_filter_eq_length_iff]
  simp

/-- A write that fails before its commit leaves the table alone. -/
theorem exact_of_not_writesFiles (h : Opened Trades.schema w) (hne : rows ≠ [])
    (hw : ¬WritesFiles ops w) : Exact w (writeBatch ops rows w) := by
  have herr : ∃ e w', writeFiles ops rows w = .error e w' ∧ w'.lake = w.lake := by
    rcases h.session with hs | ⟨batch, hs⟩
    · have hin : "incoming" ∉ w.sink.ctx.names := by simp [hs, Session.names, Session.idle]
      by_cases hp : ops.ProbeOk
      · cases hr : ops.writeRecords with
        | ok u => exact absurd ⟨hin, hp, hr⟩ hw
        | error why =>
          obtain ⟨e, n, he⟩ := writeFiles_orphans rows h hs hp hr
          exact ⟨e, _, he, rfl⟩
      · obtain ⟨e, batch, he⟩ := writeFiles_failed rows h hs hp
        exact ⟨e, _, he, rfl⟩
    · obtain ⟨e, he⟩ := writeFiles_taken ops rows h hs
      exact ⟨e, _, he, rfl⟩
  obtain ⟨e, w', he, hl⟩ := herr
  rw [writeBatch_of_error hne he]
  exact ⟨by rw [hl], by rw [hl]⟩

/-- A successful write returns the length of its batch. -/
theorem writeBatch_rows {written : WriteStats} {w' : World} (hne : rows ≠ [])
    (h : writeBatch ops rows w = .ok written w') : written.rows = rows.length := by
  have : ¬rows.isEmpty = true := by simpa using hne
  rw [writeBatch, if_neg this, bind_ok] at h
  obtain ⟨files, w₁, -, h⟩ := h
  obtain ⟨u, w₂, -, h⟩ := bind_ok.1 h
  cases h
  rfl

/-- What a write has to do for what it returns. -/
theorem exact_iff (hne : rows ≠ []) : Exact w (writeBatch ops rows w) ↔
    (final (writeBatch ops rows w)).lake.rows.length = w.lake.rows.length +
      (if succeeded (writeBatch ops rows w) then rows.length else 0) ∧
    (final (writeBatch ops rows w)).lake.table.snapshots = w.lake.table.snapshots +
      (if succeeded (writeBatch ops rows w) then 1 else 0) := by
  cases h : writeBatch ops rows w with
  | ok written w' =>
    rw [Exact, writeBatch_rows hne h]
    exact Iff.rfl
  | error e w' => exact Iff.rfl

/-- A write leaves the table alone, or appends one snapshot to it. -/
theorem writeBatch_lake (h : Opened Trades.schema w) (ops : WriteOps) (rows : List TradeEvent) :
    (final (writeBatch ops rows w)).lake = w.lake ∨
      ∃ files, (final (writeBatch ops rows w)).lake = w.lake.append files := by
  by_cases hne : rows = []
  · subst hne
    exact .inl rfl
  rcases writeFiles_spec h ops rows with ⟨files, probe, hf, -, -⟩ | ⟨e, w', hf, -, hl, -⟩
  · rw [(writeBatch_of_files hne hf).1]
    by_cases hfe : files = []
    · subst hfe
      exact .inl rfl
    · rcases (commit_spec ops.toCommitOps (w.advance files.length) hfe).lake with hl | ⟨-, hl⟩
      · exact .inl hl
      · exact .inr ⟨files, hl⟩
  · rw [writeBatch_of_error hne hf]
    exact .inl hl

/-- **When one write counts what it does.** -/
theorem exact_iff_tallies (h : Opened Trades.schema w) (hne : rows ≠ []) :
    Exact w (writeBatch ops rows w) ↔ Tallies ops rows w := by
  by_cases hw : WritesFiles ops w
  · have hs : w.sink.ctx = .idle := by
      rcases h.session with hs | ⟨batch, hs⟩
      · exact hs
      · exact absurd (by simp [hs, Session.names, Session.busy]) hw.1
    obtain ⟨files, probe, hf, hn, hperm, hnil⟩ := writeFiles_ok rows h hs hw.2.1 hw.2.2
    obtain ⟨hfin, hsucc⟩ := writeBatch_of_files hne hf
    rw [exact_iff hne, hfin, hsucc, Tallies, ← not_not (a := ∃ e ∈ rows, _), ← newRows_eq_nil,
      ← length_newRows]
    simp only [hw, true_imp_iff]
    by_cases hfe : files = []
    · -- Nothing is committed, and the batch is counted.
      have hnew := hnil.1 hfe
      subst hfe
      refine iff_of_false (fun hx => ?_) fun hx => hx.1 hnew
      have := hx.2
      rw [commit_nil] at this
      exact absurd this (Nat.ne_of_lt (Nat.lt_succ_self _))
    · have hnew := mt hnil.2 hfe
      have hlen : ((w.advance files.length).lake.append files).rows.length =
          w.lake.rows.length + (w.newRows rows).length := by
        rw [append_rows, List.length_append, hperm.length_eq]
        rfl
      have hsnap : ((w.advance files.length).lake.append files).table.snapshots =
          w.lake.table.snapshots + 1 := rfl
      rcases commit_outcome ops.toCommitOps hfe hn.unreferenced with
        ⟨hl, hu, hok, hlake⟩ | ⟨hl, hok, hlake⟩ | ⟨hl, hu, hok, hlake⟩
      · -- Applied: one snapshot, with the new rows.
        rw [hok, hlake, hlen, hsnap]
        simp only [if_true, and_true, Nat.add_left_cancel_iff]
        exact ⟨fun he => ⟨hnew, hu, fun _ => he⟩, fun hx => hx.2.2 hl⟩
      · -- Applied and not reported: a snapshot that is not counted.
        rw [hok, hlake, hsnap]
        refine iff_of_false (fun hx => ?_) fun hx => hx.2.1 hl
        exact absurd hx.2 (Nat.ne_of_gt (Nat.lt_succ_self _))
      · rw [hok, hlake]
        exact iff_of_true ⟨rfl, rfl⟩ ⟨hnew, hu, fun hx => absurd hx hl⟩
  · exact iff_of_true (exact_of_not_writesFiles h hne hw) fun hx => absurd hx hw

end

/-! ## The run -/

/-- What the commits of the running process have done to the table. -/
structure Tally where
  rows : Nat
  snapshots : Nat

/-- The tally after a step: a write's rows and snapshots are the run's, a new process starts anew. -/
def Tally.after (t : Tally) (s s' : State) : Action → Tally
  | .write _ => ⟨t.rows + (s'.world.lake.rows.length - s.world.lake.rows.length),
      t.snapshots + (s'.world.lake.table.snapshots - s.world.lake.table.snapshots)⟩
  | .crash => ⟨0, 0⟩
  | _ => t

/-- A step, and the tally with it. -/
def tallied (cfg : Config) (decode : List UInt8 → Option TradeEvent) (stream : Nat → List UInt8)
    (x : State × Tally) (a : Action) : Option (State × Tally) :=
  (step cfg decode stream x.1 a).map fun s' => (s', x.2.after x.1 s' a)

/-- The rows counted so far: in `stats`, and for a committed batch whose acks still run. -/
def State.countedRows (s : State) : Nat :=
  match s.phase with
  | .acking _ written _ _ => s.stats.rows + written.rows
  | _ => s.stats.rows

/-- The batches counted so far. -/
def State.countedBatches (s : State) : Nat :=
  match s.phase with
  | .acking _ _ _ _ => s.stats.batches + 1
  | _ => s.stats.batches

/-- The counters equal what happened to the table. In `stopped` they are the `Stats` that `run`
returns. -/
def Counted (x : State × Tally) : Prop :=
  x.1.countedRows = x.2.rows ∧ x.1.countedBatches = x.2.snapshots

/-- The step counts what it does. -/
def StepTallies (x : State × Tally) (a : Action) : Prop :=
  match x.1.phase, a with
  | .flushing batch, .write ops => Tallies ops batch.rows x.1.world
  | _, _ => True

instance instDecidableStepTallies (x : State × Tally) (a : Action) :
    Decidable (StepTallies x a) := by
  delta StepTallies
  split <;> infer_instance

/-- What the counting rests on: a connected sink, and no empty batch in `write_batch`. -/
structure Running (s : State) : Prop where
  opened : Opened Trades.schema s.world
  flushing : ∀ batch, s.phase = .flushing batch → batch.rows ≠ []

section
variable {cfg : Config} {decode : List UInt8 → Option TradeEvent} {stream : Nat → List UInt8}
  {s s' : State} {t : Tally} {a : Action}

/-! ### What is counted -/

/-- The two counts of a state. -/
def State.counted (s : State) : Nat × Nat := (s.countedRows, s.countedBatches)

theorem counted_congr (hp : s'.phase = s.phase) (hs : s'.stats = s.stats) :
    s'.counted = s.counted := by
  simp only [State.counted, State.countedRows, State.countedBatches, hp, hs]

theorem counted_of_next {trigger : FlushTrigger} (hp : s.phase = .next trigger) :
    s.counted = (s.stats.rows, s.stats.batches) := by
  cases trigger <;> simp only [State.counted, State.countedRows, State.countedBatches, hp, Phase.next]

theorem counted_of_waiting (hp : s.phase = .waiting) :
    s.counted = (s.stats.rows, s.stats.batches) := by
  simp only [State.counted, State.countedRows, State.countedBatches, hp]

theorem counted_flush (hp : s.phase = .waiting) (trigger : FlushTrigger) :
    (s.flush trigger).counted = s.counted := by
  rw [counted_of_waiting hp]
  unfold State.flush Accumulator.take
  dsimp only
  split
  · exact counted_of_next rfl
  · rfl

/-- A committed batch counts once, whether its acks still run or not. -/
theorem counted_acking (batch : MicroBatch) (written : WriteStats) (pending : List Ack) (n : Nat) :
    (s.acking batch written pending n).counted =
      (s.stats.rows + written.rows, s.stats.batches + 1) := by
  unfold State.acking
  split
  · exact counted_of_next rfl
  · rfl

/-! ### The invariant -/

theorem Running.frame (h : Running s) (hp : s'.phase = s.phase) (hw : s'.world = s.world) :
    Running s' :=
  ⟨hw ▸ h.opened, fun batch hb => h.flushing batch (hp ▸ hb)⟩

theorem Running.flush (h : Running s) (trigger : FlushTrigger) : Running (s.flush trigger) := by
  refine ⟨?_, fun batch hb => (flush_flushing hb).2⟩
  unfold State.flush
  dsimp only
  split <;> exact h.opened

theorem Running.ackingOf (h : Running s) (batch : MicroBatch) (written : WriteStats)
    (pending : List Ack) (n : Nat) : Running (s.acking batch written pending n) := by
  refine ⟨?_, fun _ hb => absurd hb acking_ne_flushing⟩
  rw [acking_world]
  exact h.opened

theorem Running.written (h : Running s) (batch : MicroBatch) (ops : WriteOps) :
    Running (s.written batch ops) := by
  have hw := writeBatch_spec h.opened ops batch.rows
  refine ⟨?_, fun _ hb => absurd hb written_ne_flushing⟩
  unfold State.written
  cases hr : writeBatch ops batch.rows s.world with
  | ok written w =>
    rw [hr] at hw
    dsimp only
    rw [acking_world]
    exact hw.opened
  | error e w =>
    rw [hr] at hw
    exact hw.opened

theorem running_step (h : Running s) (hs : step cfg decode stream s a = some s') :
    Running s' := by
  cases step_takes hs with
  | deliver _ => exact h.frame (upstream_deliver _ _).phase (upstream_deliver _ _).world
  | recv _ _ => exact h.frame rfl rfl
  | recvFull _ _ trigger =>
    refine Running.flush ?_ trigger
    exact h.frame rfl rfl
  | flush _ trigger => exact h.flush trigger
  | write _ => exact h.written _ _
  | ack _ _ _ =>
    refine Running.ackingOf ?_ _ _ _ _
    exact h.frame (upstream_invoke _ _).phase (upstream_invoke _ _).world
  | crash => exact ⟨opened_connect _ _ h.opened.lakeSchema, fun _ hb => (nomatch hb)⟩
  | foreign hf => exact ⟨h.opened.foreign hf, h.flushing⟩

/-! ### The counters after a step -/

theorem counted_iff : Counted (s, t) ↔ s.counted = (t.rows, t.snapshots) := Prod.mk_inj.symm

theorem counted_written (h : Opened Trades.schema s.world) {batch : MicroBatch} (ops : WriteOps)
    (hp : s.phase = .flushing batch) (hc : Counted (s, t)) :
    Counted (s.written batch ops, t.after s (s.written batch ops) (.write ops)) ↔
      Exact s.world (writeBatch ops batch.rows s.world) := by
  have hbefore : s.counted = (s.stats.rows, s.stats.batches) := by
    simp only [State.counted, State.countedRows, State.countedBatches, hp]
  have hgrow : s.world.lake.rows.length ≤
        (final (writeBatch ops batch.rows s.world)).lake.rows.length ∧
      s.world.lake.table.snapshots ≤
        (final (writeBatch ops batch.rows s.world)).lake.table.snapshots := by
    rcases writeBatch_lake h ops batch.rows with hl | ⟨files, hl⟩
    · rw [hl]
      exact ⟨Nat.le_refl _, Nat.le_refl _⟩
    · rw [hl, append_rows, List.length_append]
      exact ⟨Nat.le_add_right _ _, Nat.le_succ _⟩
  rw [counted_iff, hbefore, Prod.mk.injEq] at hc
  obtain ⟨hr, hb⟩ := hc
  rw [counted_iff]
  simp only [State.written]
  cases hw : writeBatch ops batch.rows s.world with
  | ok written w =>
    rw [hw] at hgrow
    simp only [counted_acking, Tally.after, acking_world, Prod.mk.injEq, Exact]
    rw [final_ok] at hgrow
    omega
  | error e w =>
    rw [hw] at hgrow
    rw [@counted_of_next _ batch.trigger rfl]
    simp only [Tally.after, Prod.mk.injEq, Exact]
    rw [final_error] at hgrow
    omega

/-- Only a write and a crash change what is counted. -/
theorem counted_step (hs : step cfg decode stream s a = some s') (hcrash : a ≠ .crash)
    (hwrite : ∀ ops, a ≠ .write ops) : s'.counted = s.counted := by
  cases step_takes hs with
  | deliver _ => exact counted_congr (upstream_deliver _ _).phase (upstream_deliver _ _).stats
  | recv _ _ => exact counted_congr rfl rfl
  | recvFull hp _ trigger =>
    refine (counted_flush ?_ trigger).trans (counted_congr rfl rfl)
    exact hp
  | flush hp trigger => exact counted_flush hp trigger
  | write _ => exact absurd rfl (hwrite _)
  | ack hp _ _ =>
    rw [counted_acking, (upstream_invoke _ _).stats]
    simp only [State.counted, State.countedRows, State.countedBatches, hp]
  | crash => exact absurd rfl hcrash
  | foreign _ => exact counted_congr rfl rfl

theorem stepTallies_of_not_write (x : State × Tally) (h : ∀ ops, a ≠ .write ops) :
    StepTallies x a := by
  unfold StepTallies
  split
  · exact absurd rfl (h _)
  · trivial

/-- **What one step counts**: what it does, exactly when it `StepTallies`. -/
theorem counted_step_iff (h : Running s) (hc : Counted (s, t))
    (hs : step cfg decode stream s a = some s') :
    Counted (s', t.after s s' a) ↔ StepTallies (s, t) a := by
  cases a with
  | write ops =>
    simp only [step] at hs
    split at hs
    · rename_i batch hp
      cases hs
      rw [counted_written h.opened ops hp hc, exact_iff_tallies h.opened (h.flushing batch hp)]
      simp only [StepTallies, hp]
    · cases hs
  | crash =>
    cases hs
    exact iff_of_true ⟨rfl, rfl⟩ (stepTallies_of_not_write _ fun _ => Action.noConfusion)
  | _ =>
    refine iff_of_true ?_ (stepTallies_of_not_write _ fun _ => Action.noConfusion)
    rw [counted_iff, counted_step hs Action.noConfusion fun _ => Action.noConfusion]
    exact counted_iff.1 hc

theorem stepTallies_of_disabled {x : State × Tally}
    (h : tallied cfg decode stream x a = none) : StepTallies x a := by
  rw [tallied, Option.map_eq_none_iff] at h
  unfold StepTallies
  split
  · rename_i hp
    simp only [step, hp] at h
    cases h
  · trivial

end

/-- **When the counters equal what happened to the table**: from any table and in any run, in every
state of it exactly when each write of it counts what it does. -/
theorem stats_equal_table_iff {cfg : Config} {decode : List UInt8 → Option TradeEvent}
    {stream : Nat → List UInt8} {lake : Lake} (hl : lake.table.schema = Trades.schema)
    (as : List Action) :
    Always (tallied cfg decode stream) Counted (.start cfg lake, ⟨0, 0⟩) as ↔
      EachStep (tallied cfg decode stream) StepTallies (.start cfg lake, ⟨0, 0⟩) as := by
  have hstart : Running (.start cfg lake) :=
    ⟨opened_connect _ _ hl, fun _ hb => (nomatch hb)⟩
  refine always_iff_eachStep (I := fun x => Running x.1) (A := fun _ => True) ?_ ?_ ?_
    (fun _ _ => trivial) hstart ⟨rfl, rfl⟩
  · intro x a x' _ hI _ hs _
    obtain ⟨s', hs', rfl⟩ := Option.map_eq_some_iff.1 hs
    exact running_step hI hs'
  · intro x a x' _ hI hc hs
    obtain ⟨s', hs', rfl⟩ := Option.map_eq_some_iff.1 hs
    exact counted_step_iff hI hc hs'
  · intro x a hs
    exact stepTallies_of_disabled hs

/-- Three new trades: two in a full batch, whose commit takes a retry, and one in the last batch. -/
theorem stats_equal_table_iff_new :
    Always (tallied smallBatches decodeByte fun seq => [seq.toUInt8]) Counted
      (.start smallBatches .created, ⟨0, 0⟩)
      [.deliver 0 (.ok ()), .deliver 1 (.ok ()), .recv 0 0 0, .recv 1 1 1,
        .write { WriteOps.allOk with
          commits := fun n => if n = 1 then .refused "409" else .applied },
        .deliver 2 (.ok ()), .ack 0 (.ok ()), .ack 0 (.ok ()), .recv 2 2 2, .stop, .write .allOk,
        .ack 0 (.ok ())] :=
  (stats_equal_table_iff rfl _).2 (by decide +kernel)

/-- `run` has returned. -/
def Phase.isStopped : Phase → Bool
  | .stopped => true
  | _ => false

theorem Phase.eq_stopped {p : Phase} (h : p.isStopped = true) : p = .stopped := by
  cases p with
  | stopped => rfl
  | _ => cases h

/-- A trade redelivered after its commit, and a shutdown. -/
def recommitted : List Action :=
  [.deliver 0 (.ok ()), .recv 0 0 0, .due 5, .write .allOk, .ack 0 (.error "timeout"),
    .deliver 0 (.ok ()), .recv 6 6 6, .stop, .write .allOk, .ack 0 (.ok ())]

/-- The run returns two rows in two batches, of one row in one snapshot. -/
theorem stats_count_duplicates : ∃ s t,
    run (tallied smallBatches decodeByte oneTrade) (.start smallBatches .created, ⟨0, 0⟩)
      recommitted = some (s, t) ∧
    s.phase = .stopped ∧ s.stats.rows = 2 ∧ s.stats.batches = 2 ∧ t = ⟨1, 1⟩ ∧
    ¬Counted (s, t) := by
  have ha : (run (tallied smallBatches decodeByte oneTrade)
      (.start smallBatches .created, ⟨0, 0⟩) recommitted).map
      (fun x => (x.1.phase.isStopped, x.1.stats.rows, x.1.stats.batches, x.2.rows,
        x.2.snapshots)) = some (true, 2, 2, 1, 1) := by decide +kernel
  obtain ⟨⟨s, t⟩, hx, he⟩ := Option.map_eq_some_iff.1 ha
  simp only [Prod.mk.injEq] at he
  obtain ⟨hp, hr, hb, htr, hts⟩ := he
  have hstop : s.phase = .stopped := Phase.eq_stopped hp
  have ht : t = ⟨1, 1⟩ := by
    cases t
    simp_all
  refine ⟨s, t, hx, hstop, hr, hb, ht, fun hc => ?_⟩
  have := hc.1
  rw [State.countedRows, hstop, ht] at this
  simp [hr] at this

end Batcher
