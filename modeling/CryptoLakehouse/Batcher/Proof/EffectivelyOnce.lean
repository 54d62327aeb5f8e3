import CryptoLakehouse.Batcher.Proof.AckSafety

/-!
# Effectively once

With dedup on, one writer and one payload per key, redelivery never reaches the table twice. `Once`
is the invariant: the table's keys are distinct and its rows agree with the stream's events, and
every batch on its way has distinct keys.

* `written_rows` — a write adds exactly the batch's rows whose key the table lacks.
* `effectively_once` — at most one row per key, and one for every key of a committed batch.
-/

namespace Batcher

open Trades Sink Fallible

/-- One row per key and agreement with the stream, for the table and for what is on its way. -/
structure Once (Events : TradeEvent → Prop) (s : State) : Prop where
  opened : Opened Trades.schema s.world
  uniq : Keyed.Uniq TradeRow.key s.world.lake.rows
  agrees : ∀ r ∈ s.world.lake.rows, ∀ e, Events e → r.key = some e.key → r = TradeRow.ofEvent e
  channel : ∀ env ∈ s.channel, Events env.event
  dedup : s.acc.policy.dedup = true
  buffered : ∀ e ∈ s.acc.rows, Events e
  flushing : ∀ batch, s.phase = .flushing batch →
    (batch.rows.map TradeEvent.key).Nodup ∧ ∀ e ∈ batch.rows, Events e
  committed : ∀ rows ∈ s.history.committed, ∀ e ∈ rows, Stored s.world e

/-- The events of the stream. -/
def EventOf (decode : List UInt8 → Option TradeEvent) (stream : Nat → List UInt8)
    (e : TradeEvent) : Prop := ∃ seq, decode (stream seq) = some e

section
variable {cfg : Config} {decode : List UInt8 → Option TradeEvent} {stream : Nat → List UInt8}
  {s s' : State} {Events : TradeEvent → Prop}

/-! ## The write -/

/-- The rows of a batch whose key the table does not hold. -/
def State.lacking (s : State) (batch : MicroBatch) : List TradeRow :=
  (batch.rows.filter fun e => e.key ∉ Keyed.keys TradeRow.key s.world.lake.rows).map .ofEvent

theorem Once.newRows (h : Once Events s) {batch : MicroBatch} (hb : s.phase = .flushing batch) :
    s.world.newRows batch.rows = s.lacking batch :=
  dedupRows_of_agree fun r hr e he hk =>
    congrArg TradeRow.tradeTs (h.agrees r hr e ((h.flushing batch hb).2 e he) hk)

theorem written_world (batch : MicroBatch) (ops : WriteOps) :
    (s.written batch ops).world = final (writeBatch ops batch.rows s.world) := by
  unfold State.written
  split
  · rename_i hr
    rw [acking_world, hr]
    rfl
  · rename_i hr
    rw [hr]
    rfl

/-- **A write adds only the new rows**, or nothing. -/
theorem written_rows (h : Once Events s) {batch : MicroBatch} (hb : s.phase = .flushing batch)
    (ops : WriteOps) : (s.written batch ops).world.lake.rows = s.world.lake.rows ∨
      (s.written batch ops).world.lake.rows.Perm (s.world.lake.rows ++ s.lacking batch) := by
  rw [written_world, ← h.newRows hb]
  exact (writeBatch_spec h.opened ops batch.rows).lake

/-- The lacking rows have distinct keys, none of them stored. -/
theorem Once.uniq_append (h : Once Events s) {batch : MicroBatch}
    (hb : s.phase = .flushing batch) :
    Keyed.Uniq TradeRow.key (s.world.lake.rows ++ s.lacking batch) := by
  obtain ⟨hu, hn⟩ := keys_lacking (h.flushing batch hb).1
    (Keyed.keys TradeRow.key s.world.lake.rows)
  exact Keyed.uniq_append.2 ⟨h.uniq, hu, fun k hk hk' => hn k hk' hk⟩

/-! ## One step -/

theorem Once.flush (h : Once Events s) (t : FlushTrigger) : Once Events (s.flush t) := by
  unfold State.flush Accumulator.take
  dsimp only
  split
  · exact ⟨h.opened, h.uniq, h.agrees, h.channel, h.dedup, fun _ he => absurd he List.not_mem_nil,
      fun _ hb => absurd hb next_ne_flushing, h.committed⟩
  · refine ⟨h.opened, h.uniq, h.agrees, h.channel, h.dedup,
      fun _ he => absurd he List.not_mem_nil, fun batch hb => ?_, h.committed⟩
    cases hb
    exact ⟨s.acc.distinct h.dedup, h.buffered⟩

theorem Once.push (h : Once Events s) {envelope : Envelope} {channel : List Envelope}
    (hc : s.channel = envelope :: channel) (seen now : Instant) :
    Once Events { s with channel, acc := (s.acc.push envelope seen now).2 } where
  opened := h.opened
  uniq := h.uniq
  agrees := h.agrees
  channel env he := h.channel env (hc ▸ List.mem_cons_of_mem _ he)
  dedup := by rw [Accumulator.push_policy]; exact h.dedup
  buffered e he := by
    rcases Accumulator.mem_push he with he | rfl
    · exact h.buffered e he
    · exact h.channel envelope (hc ▸ List.mem_cons_self)
  flushing := h.flushing
  committed := h.committed

theorem Once.invoke (h : Once Events s) (reply : Reply) (ack : Ack) :
    Once Events (s.invoke reply ack) := by
  cases ack with
  | nats msg => exact ⟨h.opened, h.uniq, h.agrees, h.channel, h.dedup, h.buffered, h.flushing,
      h.committed⟩
  | counter id => exact h
  | none => exact h

theorem Once.ackingOf (h : Once Events s) (batch : MicroBatch) (written : WriteStats)
    (pending : List Ack) (n : Nat) : Once Events (s.acking batch written pending n) := by
  unfold State.acking
  split
  · exact ⟨h.opened, h.uniq, h.agrees, h.channel, h.dedup, h.buffered,
      fun _ hb => absurd hb next_ne_flushing, h.committed⟩
  · exact ⟨h.opened, h.uniq, h.agrees, h.channel, h.dedup, h.buffered, nofun, h.committed⟩

theorem Once.deliver (h : Once (EventOf decode stream) s) (seq delivery : Nat) (reply : Reply) :
    Once (EventOf decode stream) (s.deliver decode ⟨seq, delivery, stream seq⟩ reply) := by
  have h' : Once (EventOf decode stream) { s with deliveries := s.deliveries + 1 } :=
    ⟨h.opened, h.uniq, h.agrees, h.channel, h.dedup, h.buffered, h.flushing, h.committed⟩
  unfold State.deliver processMessage
  cases hd : decode (stream seq) with
  | none => exact h'.invoke reply _
  | some e =>
    dsimp only [Option.map_some]
    split
    · exact ⟨h.opened, h.uniq, h.agrees, h.channel, h.dedup, h.buffered, h.flushing, h.committed⟩
    · refine ⟨h.opened, h.uniq, h.agrees, fun env he => ?_, h.dedup, h.buffered, h.flushing,
        h.committed⟩
      rcases List.mem_append.1 he with he | he
      · exact h.channel env he
      · obtain rfl := List.mem_singleton.1 he
        exact ⟨seq, hd⟩

section
variable (hev : ∀ e e', Events e → Events e' → e.key = e'.key → e = e')
include hev

/-- The table after a write. -/
theorem Once.world (h : Once Events s) {batch : MicroBatch} (hb : s.phase = .flushing batch)
    (ops : WriteOps) : Once Events { s with world := (s.written batch ops).world } := by
  have hw := writeBatch_spec h.opened ops batch.rows
  have hrows := written_rows h hb ops
  have hmem : ∀ r ∈ (s.written batch ops).world.lake.rows,
      r ∈ s.world.lake.rows ∨ r ∈ s.lacking batch := fun r hr => by
    rcases hrows with hl | hl
    · exact .inl (hl ▸ hr)
    · exact List.mem_append.1 (hl.mem_iff.1 hr)
  refine ⟨by rw [written_world]; exact hw.opened, ?_, fun r hr e he hk => ?_, h.channel, h.dedup,
    h.buffered, h.flushing, fun rows hc e he => ?_⟩
  · rcases hrows with hl | hl
    · rw [hl]
      exact h.uniq
    · exact (Keyed.uniq_perm hl).2 (h.uniq_append hb)
  · rcases hmem r hr with hr | hr
    · exact h.agrees r hr e he hk
    · obtain ⟨e', he', rfl⟩ := List.mem_map.1 hr
      have hbatch := (h.flushing batch hb).2 e' (List.mem_filter.1 he').1
      rw [hev e' e hbatch he (Option.some.inj hk)]
  · obtain ⟨r, hr, hk⟩ := Keyed.mem_keys.1 (h.committed rows hc e he)
    refine Keyed.mem_keys.2 ⟨r, ?_, hk⟩
    rw [written_world]
    exact hw.mem_rows hr

theorem Once.written (h : Once Events s) {batch : MicroBatch} (hb : s.phase = .flushing batch)
    (ops : WriteOps) : Once Events (s.written batch ops) := by
  have hs := h.world hev hb ops
  have hw := writeBatch_spec h.opened ops batch.rows
  rw [written_world] at hs
  unfold State.written
  cases hr : writeBatch ops batch.rows s.world with
  | ok written w =>
    rw [hr] at hs hw
    have hs' : Once Events { s with
        world := w
        history := { s.history with committed := s.history.committed ++ [batch.rows] } } := by
      refine ⟨hs.opened, hs.uniq, hs.agrees, hs.channel, hs.dedup, hs.buffered, hs.flushing, ?_⟩
      intro rows hc e he
      rcases List.mem_append.1 hc with hc | hc
      · exact hs.committed rows hc e he
      · rw [List.mem_singleton.1 hc] at he
        exact hw.mem_keys rfl he
    exact hs'.ackingOf batch written batch.acks 0
  | error e w =>
    rw [hr] at hs
    exact ⟨hs.opened, hs.uniq, hs.agrees, hs.channel, hs.dedup, hs.buffered,
      fun _ hb => absurd hb next_ne_flushing, hs.committed⟩

end

theorem once_step {a : Action} (hd : cfg.policy.dedup = true)
    (hev : ∀ e e', EventOf decode stream e → EventOf decode stream e' → e.key = e'.key → e = e')
    (hown : ∀ files, a ≠ .foreign files) (h : Once (EventOf decode stream) s)
    (hs : step cfg decode stream s a = some s') : Once (EventOf decode stream) s' := by
  cases step_takes hs with
  | deliver _ => exact h.deliver _ _ _
  | recv _ hc => exact h.push hc _ _
  | recvFull _ hc t => exact (h.push hc _ _).flush t
  | flush _ t => exact h.flush t
  | write hb => exact h.written hev hb _
  | ack _ _ _ => exact (h.invoke _ _).ackingOf _ _ _ _
  | crash =>
    exact ⟨opened_connect _ _ h.opened.lakeSchema, h.uniq, h.agrees, nofun, hd, nofun, nofun,
      h.committed⟩
  | foreign _ => exact absurd rfl (hown _)

/-! ## Every run -/

/-- **Effectively once.** With dedup on, one payload per key and no other writer, from a table of
distinct keys that agrees with the stream: in every state of every run the table's keys are
distinct, it has exactly one row for every key of every batch whose `write_batch` returned `Ok`,
and the write of the batch at hand adds exactly the rows whose key it lacks, or nothing. -/
theorem effectively_once {lake : Lake} (hl : lake.table.schema = Trades.schema)
    (hd : cfg.policy.dedup = true)
    (hev : ∀ i j e e', decode (stream i) = some e → decode (stream j) = some e' →
      e.key = e'.key → e = e')
    (hu : Keyed.Uniq TradeRow.key lake.rows)
    (hagree : ∀ r ∈ lake.rows, ∀ i e, decode (stream i) = some e → r.key = some e.key →
      r = TradeRow.ofEvent e)
    {as : List Action} (hown : ∀ files, Action.foreign files ∉ as)
    (h : Machine.run (step cfg decode stream) (.start cfg lake) as = some s) :
    Keyed.Uniq TradeRow.key s.world.lake.rows ∧
    (∀ rows ∈ s.history.committed, ∀ e ∈ rows,
      (Keyed.keys TradeRow.key s.world.lake.rows).count e.key = 1) ∧
    ∀ batch ops, s.phase = .flushing batch →
      (s.written batch ops).world.lake.rows = s.world.lake.rows ∨
      (s.written batch ops).world.lake.rows.Perm (s.world.lake.rows ++
        (batch.rows.filter fun e => e.key ∉ Keyed.keys TradeRow.key s.world.lake.rows).map
          .ofEvent) := by
  have hev' : ∀ e e', EventOf decode stream e → EventOf decode stream e' → e.key = e'.key →
      e = e' := by
    rintro e e' ⟨i, hi⟩ ⟨j, hj⟩ hk
    exact hev i j e e' hi hj hk
  have hstart : Once (EventOf decode stream) (.start cfg lake) :=
    ⟨opened_connect _ _ hl, hu, fun r hr e ⟨i, hi⟩ hk => hagree r hr i e hi hk, nofun, hd, nofun,
      nofun, nofun⟩
  have hs : Once (EventOf decode stream) s :=
    Machine.run_inv_of (A := fun a => ∀ files, a ≠ Action.foreign files)
      (fun _ _ _ ha h hs => once_step hd hev' ha h hs)
      (fun a ha files he => hown files (he ▸ ha)) hstart h
  exact ⟨hs.uniq, fun rows hc e he => hs.uniq.count_eq_one (hs.committed rows hc e he),
    fun batch ops hb => written_rows hs hb ops⟩

end

/-- The redelivered trade after a commit that was applied, reported as lost and retried. -/
theorem effectively_once_lost : ∃ s,
    Machine.run (step smallBatches decodeByte oneTrade) (.start smallBatches .created)
      [.deliver 0 (.ok ()), .recv 0 0 0, .due 5,
        .write { WriteOps.allOk with commits := fun _ => .lost "timeout" },
        .deliver 0 (.ok ()), .recv 6 6 6, .due 11, .write .allOk] = some s ∧
    s.world.lake.rows = [.ofEvent (btcTrade 7 1000)] ∧
    s.history.committed = [[btcTrade 7 1000]] ∧
    (∀ rows ∈ s.history.committed, ∀ e ∈ rows,
      (Keyed.keys TradeRow.key s.world.lake.rows).count e.key = 1) := by
  have ha : (Machine.run (step smallBatches decodeByte oneTrade) (.start smallBatches .created)
      [.deliver 0 (.ok ()), .recv 0 0 0, .due 5,
        .write { WriteOps.allOk with commits := fun _ => .lost "timeout" },
        .deliver 0 (.ok ()), .recv 6 6 6, .due 11, .write .allOk]).map
      (fun s => (s.world.lake.rows, s.history.committed)) =
      some ([.ofEvent (btcTrade 7 1000)], [[btcTrade 7 1000]]) := by decide +kernel
  obtain ⟨s, hs, he⟩ := Option.map_eq_some_iff.1 ha
  obtain ⟨hrows, hcomm⟩ := Prod.mk.inj he
  have h7 : decodeByte (oneTrade 0) = some (btcTrade 7 1000) := by decide +kernel
  have hone : ∀ {i e}, decodeByte (oneTrade i) = some e → e = btcTrade 7 1000 := fun {i e} h => by
    cases i with
    | zero => exact Option.some.inj (h.symm.trans h7)
    | succ i => cases h
  have hl : Lake.created.table.schema = Trades.schema := rfl
  have hd : smallBatches.policy.dedup = true := rfl
  have hev : ∀ i j e e', decodeByte (oneTrade i) = some e → decodeByte (oneTrade j) = some e' →
      e.key = e'.key → e = e' := fun i j e e' hi hj _ => (hone hi).trans (hone hj).symm
  have hu : Keyed.Uniq TradeRow.key Lake.created.rows := Keyed.uniq_nil
  exact ⟨s, hs, hrows, hcomm, (effectively_once hl hd hev hu (fun _ hr => absurd hr List.not_mem_nil)
    (by simp) hs).2.1⟩

end Batcher
