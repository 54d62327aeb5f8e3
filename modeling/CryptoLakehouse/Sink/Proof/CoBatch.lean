import CryptoLakehouse.Sink.Proof.Dedup

/-!
# Rows of one micro-batch

Whether the anti-join drops a row can depend on the rows it shares its micro-batch with: the probe
side is every stored row inside any of the batch's brackets, and the join ignores `trade_ts`. A
stored row of another day is out of sight for its key alone, and in sight as soon as other rows of
the batch bracket it.

* `keeps_iff_alone` — the exact condition under which no row's fate depends on the others.
-/

namespace Sink

open Trades Fallible

/-- A stored row of the event's key and its very `trade_ts`. -/
def Held (stored : List TradeRow) (e : TradeEvent) : Prop :=
  ∃ r ∈ stored, r.key = some e.key ∧ r.tradeTs = some e.tradeTs

/-- A stored row of the event's key between two `trade_ts` of its exchange and of one UTC day of
the batch. -/
def InSight (stored : List TradeRow) (rows : List TradeEvent) (e : TradeEvent) : Prop :=
  ∃ r ∈ stored, r.key = some e.key ∧ ∃ t, r.tradeTs = some t ∧
    ∃ x ∈ rows, ∃ y ∈ rows, x.exchange = e.exchange ∧ y.exchange = e.exchange ∧
      x.tradeTs.divEuclid microsPerDay = y.tradeTs.divEuclid microsPerDay ∧
      x.tradeTs ≤ t ∧ t ≤ y.tradeTs

instance instDecidableHeld (stored : List TradeRow) (e : TradeEvent) : Decidable (Held stored e) :=
  inferInstanceAs (Decidable (∃ r ∈ stored, _))

instance instDecidableInSight (stored : List TradeRow) (rows : List TradeEvent) (e : TradeEvent) :
    Decidable (InSight stored rows e) := inferInstanceAs (Decidable (∃ r ∈ stored, _))

/-- Whether `deduped_batch` keeps the row of `e` from a micro-batch. -/
def keeps (ops : WriteOps) (w : World) (rows : List TradeEvent) (e : TradeEvent) : Bool :=
  match toRecordBatch Trades.schema rows with
  | .ok batch =>
    match dedupedBatch ops batch Trades.schema w with
    | .ok (out, _) _ => decide (TradeRow.ofEvent e ∈ out.flatMap trades)
    | .error _ _ => false
  | .error _ => false

section
variable {ops : WriteOps} {w : World} {rows : List TradeEvent} {e : TradeEvent}
  {stored : List TradeRow}

/-- The events' rows inside a batch's brackets, in the events' own terms. -/
theorem inBracket_ofEvent {r : TradeRow} : inBracket (rows.map .ofEvent) r = true ↔
    ∃ t, r.tradeTs = some t ∧ ∃ a ∈ rows, ∃ b ∈ rows, r.exchange = some a.exchange ∧
      r.exchange = some b.exchange ∧
      a.tradeTs.divEuclid microsPerDay = b.tradeTs.divEuclid microsPerDay ∧
      a.tradeTs ≤ t ∧ t ≤ b.tradeTs := by
  simp only [inBracket_iff, mem_groupRows, List.mem_map, exists_exists_and_eq_and]
  refine ⟨fun h => ?_, fun h => ?_⟩
  · obtain ⟨ex, day, t, lo, hi, hx, ht, ⟨a, ha, hat, hax, -, had⟩,
      ⟨b, hb, hbt, hbx, -, hbd⟩, hl, hh⟩ := h
    cases hat
    cases hbt
    exact ⟨t, ht, a, ha, b, hb, hx.trans hax.symm, hx.trans hbx.symm, had.symm.trans hbd, hl, hh⟩
  · obtain ⟨t, ht, a, ha, b, hb, hax, hbx, hd, hl, hh⟩ := h
    exact ⟨a.exchange, _, t, a.tradeTs, b.tradeTs, hax, ht, ⟨a, ha, rfl, rfl, rfl, rfl⟩,
      ⟨b, hb, rfl, hbx.symm.trans hax, rfl, hd⟩, hl, hh⟩

/-- A row of the event's key is inside the brackets by its time alone. -/
theorem inBracket_of_key {r : TradeRow} (hk : r.key = some e.key) :
    inBracket (rows.map .ofEvent) r = true ↔ ∃ t, r.tradeTs = some t ∧
      ∃ a ∈ rows, ∃ b ∈ rows, a.exchange = e.exchange ∧ b.exchange = e.exchange ∧
        a.tradeTs.divEuclid microsPerDay = b.tradeTs.divEuclid microsPerDay ∧
        a.tradeTs ≤ t ∧ t ≤ b.tradeTs := by
  simp only [inBracket_ofEvent, (TradeRow.key_eq_some.1 hk).1, Option.some.injEq]
  simp only [TradeEvent.key, eq_comm (a := e.exchange)]

/-- The event's own bracket is its very `trade_ts`. -/
theorem inBracket_alone {r : TradeRow} (hk : r.key = some e.key) :
    inBracket ([e].map .ofEvent) r = true ↔ r.tradeTs = some e.tradeTs := by
  simp only [inBracket_of_key hk, List.mem_singleton, exists_eq_left]
  refine ⟨fun h => ?_, fun ht => ?_⟩
  · obtain ⟨t, ht, -, -, -, hl, hh⟩ := h
    rw [ht, le_antisymm hh hl]
  · exact ⟨e.tradeTs, ht, trivial, trivial, trivial, le_rfl, le_rfl⟩

theorem matched_iff_inSight : Keyed.matched TradeRow.key TradeRow.key
    (stored.filter (inBracket (rows.map .ofEvent))) (.ofEvent e) = true ↔
    InSight stored rows e := by
  simp only [Keyed.matched_iff, TradeRow.key_ofEvent, Option.some.injEq, exists_eq_left',
    Keyed.mem_keys, List.mem_filter, InSight, and_assoc]
  refine exists_congr fun r => and_congr_right fun _ => ?_
  rw [and_comm]
  exact and_congr_right fun hk => inBracket_of_key hk

theorem inSight_alone : InSight stored [e] e ↔ Held stored e := by
  refine exists_congr fun r => and_congr_right fun _ => and_congr_right fun hk => ?_
  rw [← inBracket_alone hk, inBracket_of_key hk]

/-- An event's own time is in one of its batch's brackets. -/
theorem Held.inSight (h : Held stored e) (he : e ∈ rows) : InSight stored rows e := by
  obtain ⟨r, hr, hk, ht⟩ := h
  exact ⟨r, hr, hk, _, ht, e, he, e, he, rfl, rfl, rfl, le_rfl, le_rfl⟩

/-- The sink's dedup of a batch: the events whose key no stored row in sight has. -/
theorem dedupRows_ofEvent : dedupRows stored (rows.map .ofEvent) =
    (rows.filter fun e => ¬InSight stored rows e).map .ofEvent := by
  rw [dedupRows, Keyed.antiJoin, List.filter_map]
  congr 1
  refine List.filter_congr fun e _ => ?_
  rw [Bool.eq_iff_iff, Function.comp_apply, Bool.not_eq_true', ← Bool.not_eq_true,
    matched_iff_inSight, decide_eq_true_eq]

/-- A kept row is one with no stored row of its key in sight. -/
theorem keeps_iff (hw : w.sink.ctx = .idle) (hp : ops.ProbeOk) (he : e ∈ rows) :
    keeps ops w rows e = true ↔ ¬InSight w.lake.rows rows e := by
  obtain ⟨batch, hb, hs, ht⟩ := toRecordBatch_schema rows
  obtain ⟨out, probe, hd, hos, hot⟩ := dedupedBatch_ok hs hw hp
  have hmem : TradeRow.ofEvent e ∈ rows.map TradeRow.ofEvent := List.mem_map_of_mem he
  have hiff : TradeRow.ofEvent e ∈ trades out ↔ ¬InSight w.lake.rows rows e := by
    rw [hot, ht, dedupRows, Keyed.antiJoin, List.mem_filter, Bool.not_eq_true',
      ← Bool.not_eq_true, matched_iff_inSight]
    exact and_iff_right hmem
  simp only [keeps, hb, hd, decide_eq_true_eq, List.flatMap_cons, List.flatMap_nil,
    List.append_nil, hiff]

/-- On its own a row is dropped for a stored row of its key and its very `trade_ts`. -/
theorem keeps_alone_iff (hw : w.sink.ctx = .idle) (hp : ops.ProbeOk) :
    keeps ops w [e] e = true ↔ ¬Held w.lake.rows e := by
  rw [keeps_iff hw hp List.mem_cons_self, inSight_alone]

end

/-- **When co-batched rows do not matter**: no row's fate depends on the others exactly when each
row with a stored row of its key between two `trade_ts` of its exchange and of one UTC day of the
batch has a stored row of its key and its very `trade_ts`. -/
theorem keeps_iff_alone {ident : String} {cfg : IcebergConfig} {lake : Lake}
    {ops : WriteOps} (hp : ops.ProbeOk)
    (rows : List TradeEvent) :
    (∀ e ∈ rows, keeps ops (connect ident cfg lake) rows e = true ↔
      keeps ops (connect ident cfg lake) [e] e = true) ↔
    ∀ e ∈ rows,
      (∃ r ∈ lake.rows, r.key = some e.key ∧ ∃ t, r.tradeTs = some t ∧
        ∃ a ∈ rows, ∃ b ∈ rows, a.exchange = e.exchange ∧ b.exchange = e.exchange ∧
          a.tradeTs.divEuclid microsPerDay = b.tradeTs.divEuclid microsPerDay ∧
          a.tradeTs ≤ t ∧ t ≤ b.tradeTs) →
      ∃ r ∈ lake.rows, r.key = some e.key ∧ r.tradeTs = some e.tradeTs := by
  refine forall_congr' fun e => forall_congr' fun he => ?_
  rw [keeps_iff rfl hp he, keeps_alone_iff rfl hp, not_iff_not]
  -- A row's own time is always in sight.
  exact ⟨fun hiff => hiff.1, fun himp => ⟨himp, fun h => h.inSight he⟩⟩

/-- Two new trades of another day: the first does not depend on the second. -/
theorem keeps_iff_alone_two :
    keeps .allOk (connect "trades.trades" ⟨5⟩ (.holding [.ofEvent (btcTrade 7 43200000)]))
      [btcTrade 8 129600000, btcTrade 9 129600001] (btcTrade 8 129600000) = true ↔
    keeps .allOk (connect "trades.trades" ⟨5⟩ (.holding [.ofEvent (btcTrade 7 43200000)]))
      [btcTrade 8 129600000] (btcTrade 8 129600000) = true :=
  (keeps_iff_alone WriteOps.probeOk_allOk _).2 (by decide +kernel) _ List.mem_cons_self

/-- Trade 7 is stored at noon of day 0 only. Its namesake of day 1 is kept alone, and dropped
beside two trades of the same exchange around noon of day 0. -/
theorem dropped_beside_others :
    ([btcTrade 7 129600000, btcTrade 8 39600000, btcTrade 9 46800000].map TradeEvent.key).Nodup ∧
    keeps .allOk (connect "trades.trades" ⟨5⟩ (.holding [.ofEvent (btcTrade 7 43200000)]))
      [btcTrade 7 129600000] (btcTrade 7 129600000) = true ∧
    keeps .allOk (connect "trades.trades" ⟨5⟩ (.holding [.ofEvent (btcTrade 7 43200000)]))
      [btcTrade 7 129600000, btcTrade 8 39600000, btcTrade 9 46800000]
      (btcTrade 7 129600000) = false := by
  decide +kernel

end Sink
