import CryptoLakehouse.Sink.Write

/-!
# What the anti-join drops

`dedupRows stored batch` is the dedup of a micro-batch in terms of rows alone: the rows of `batch`
whose key no stored row inside the batch's brackets has (`inBracket`).

* `scan_eq` — the probe side is the stored rows inside the batch's brackets.
* `dedupedBatch_ok` — on a session without `incoming` and with no failing operation, `dedupedBatch`
  returns one batch holding `dedupRows` and leaves the state as it was.
* `dedupedBatch_taken`, `dedupedBatch_failed` — the two ways it fails, and the session each leaves
  behind.
-/

namespace Sink

open Arrow Trades Fallible

/-! ## Row level -/

/-- Whether a row lies between two `trade_ts` values of its exchange and of one UTC day of
`batch`. -/
def inBracket (batch : List TradeRow) (r : TradeRow) : Bool :=
  match r.exchange, r.tradeTs with
  | some ex, some v => (groupRows batch).any fun p => p.1.1 == ex && p.2 ≤ v &&
      (groupRows batch).any fun q => q.1 == p.1 && v ≤ q.2
  | _, _ => false

/-- The rows of `batch` whose key no stored row inside the batch's brackets has. -/
def dedupRows (stored batch : List TradeRow) : List TradeRow :=
  Keyed.antiJoin TradeRow.key TradeRow.key batch (stored.filter (inBracket batch))

theorem inBracket_iff {batch : List TradeRow} {r : TradeRow} : inBracket batch r = true ↔
    ∃ ex day v lo hi, r.exchange = some ex ∧ r.tradeTs = some v ∧
      ((ex, day), lo) ∈ groupRows batch ∧ ((ex, day), hi) ∈ groupRows batch ∧ lo ≤ v ∧ v ≤ hi := by
  unfold inBracket
  split
  · rename_i ex v hx hv
    simp only [List.any_eq_true, Bool.and_eq_true, beq_iff_eq, decide_eq_true_eq, hx, hv]
    refine ⟨fun h => ?_, fun h => ?_⟩
    · obtain ⟨⟨⟨ex', day⟩, lo⟩, hp, ⟨rfl, hlo⟩, ⟨g, hi⟩, hq, rfl, hhi⟩ := h
      exact ⟨_, day, v, lo, hi, rfl, rfl, hp, hq, hlo, hhi⟩
    · obtain ⟨ex', day, v', lo, hi, hex, hev, hp, hq, hlo, hhi⟩ := h
      cases hex
      cases hev
      exact ⟨_, hp, ⟨rfl, hlo⟩, _, hq, rfl, hhi⟩
  · rename_i hn
    simp only [Bool.false_eq_true, false_iff]
    intro h
    obtain ⟨ex, day, v, lo, hi, hx, hv, -⟩ := h
    exact hn ex v hx hv

/-- The same in terms of the brackets' bounds. -/
theorem inBracket_iff_isBracket {batch : List TradeRow} {r : TradeRow} :
    inBracket batch r = true ↔ ∃ ex day lo hi,
      Bracket.IsBracket (groupRows batch) (ex, day) lo hi ∧ r.exchange = some ex ∧
      ∃ v, r.tradeTs = some v ∧ lo ≤ v ∧ v ≤ hi := by
  rw [inBracket_iff]
  refine ⟨fun hl => ?_, fun hl => ?_⟩
  · obtain ⟨ex, day, v, a, b, hx, hv, ha, hb, hav, hvb⟩ := hl
    obtain ⟨lo, hi, h⟩ := Bracket.exists_isBracket Int64.le_maxVal Int64.minVal_le ha
    exact ⟨ex, day, lo, hi, h, hx, v, hv, (h.2.2 _ ha).1.trans hav, hvb.trans (h.2.2 _ hb).2⟩
  · obtain ⟨ex, day, lo, hi, h, hx, v, hv, hlo, hhi⟩ := hl
    exact ⟨ex, day, v, lo, hi, hx, hv, h.1, h.2.1, hlo, hhi⟩

theorem mem_groupRows {batch : List TradeRow} {ex : String} {day t : Int64} :
    ((ex, day), t) ∈ groupRows batch ↔ ∃ r ∈ batch, r.tradeTs = some t ∧ r.exchange = some ex ∧
      r.symbol.isSome ∧ day = t.divEuclid microsPerDay := by
  simp only [groupRows, List.mem_filterMap]
  refine exists_congr fun r => and_congr_right fun _ => ?_
  cases ht : r.tradeTs <;> cases hx : r.exchange <;> cases hs : r.symbol <;>
    simp [groupOf]
  refine ⟨fun h => ?_, fun h => ?_⟩
  · obtain ⟨⟨rfl, rfl⟩, rfl⟩ := h
    exact ⟨rfl, rfl, rfl⟩
  · obtain ⟨rfl, rfl, rfl⟩ := h
    exact ⟨⟨rfl, rfl⟩, rfl⟩

/-- A row of the batch lies in its own bracket. -/
theorem inBracket_of_mem {batch : List TradeRow} {r r' : TradeRow} (hr : r ∈ batch)
    {ex : String} {t : Int64} (hx : r.exchange = some ex) (ht : r.tradeTs = some t)
    (hs : r.symbol.isSome) (hx' : r'.exchange = some ex) (ht' : r'.tradeTs = some t) :
    inBracket batch r' = true := by
  have hm := mem_groupRows.2 ⟨r, hr, ht, hx, hs, rfl⟩
  exact inBracket_iff.2 ⟨ex, _, t, t, t, hx', ht', hm, hm, le_rfl, le_rfl⟩

theorem mem_keys_dedupRows {stored batch : List TradeRow} {k : Key} :
    k ∈ Keyed.keys TradeRow.key (dedupRows stored batch) ↔ k ∈ Keyed.keys TradeRow.key batch ∧
      k ∉ Keyed.keys TradeRow.key (stored.filter (inBracket batch)) :=
  Keyed.mem_keys_antiJoin

/-- Every key of the batch is stored or kept. -/
theorem mem_keys_append_dedupRows {stored batch : List TradeRow} {k : Key}
    (hk : k ∈ Keyed.keys TradeRow.key batch) :
    k ∈ Keyed.keys TradeRow.key (stored ++ dedupRows stored batch) := by
  rw [Keyed.keys_append, List.mem_append]
  by_cases h : k ∈ Keyed.keys TradeRow.key (stored.filter (inBracket batch))
  · exact .inl ((Keyed.keys_sublist List.filter_sublist).subset h)
  · exact .inr (mem_keys_dedupRows.2 ⟨hk, h⟩)

/-- When stored rows agree with the batch on `trade_ts`, the brackets hide nothing: the anti-join
drops exactly the rows whose key is stored. -/
theorem dedupRows_of_agree {stored : List TradeRow} {rows : List TradeEvent}
    (h : ∀ r ∈ stored, ∀ e ∈ rows, r.key = some e.key → r.tradeTs = some e.tradeTs) :
    dedupRows stored (rows.map .ofEvent) =
      (rows.filter fun e => e.key ∉ Keyed.keys TradeRow.key stored).map .ofEvent := by
  have hsame : ∀ e ∈ rows, e.key ∈ Keyed.keys TradeRow.key
        (stored.filter (inBracket (rows.map .ofEvent))) ↔
      e.key ∈ Keyed.keys TradeRow.key stored := fun e he => by
    refine ⟨fun hm => (Keyed.keys_sublist List.filter_sublist).subset hm, fun hm => ?_⟩
    obtain ⟨r, hr, hk⟩ := Keyed.mem_keys.1 hm
    refine Keyed.mem_keys.2 ⟨r, List.mem_filter.2 ⟨hr, ?_⟩, hk⟩
    exact inBracket_of_mem (List.mem_map_of_mem he) rfl rfl rfl (TradeRow.key_eq_some.1 hk).1
      (h r hr e he hk)
  rw [dedupRows, Keyed.antiJoin, List.filter_map]
  congr 1
  refine List.filter_congr fun e he => ?_
  rw [Bool.eq_iff_iff, Function.comp_apply, Bool.not_eq_true', ← Bool.not_eq_true,
    Keyed.matched_iff, decide_eq_true_eq, TradeRow.key_ofEvent]
  simp only [Option.some.injEq, exists_eq_left', hsame e he]

/-- What is left then: rows of distinct keys, none of them stored. -/
theorem keys_lacking {rows : List TradeEvent} (h : (rows.map TradeEvent.key).Nodup)
    (stored : List Key) :
    Keyed.Uniq TradeRow.key ((rows.filter fun e => e.key ∉ stored).map .ofEvent) ∧
    ∀ k ∈ Keyed.keys TradeRow.key ((rows.filter fun e => e.key ∉ stored).map .ofEvent),
      k ∉ stored := by
  rw [Keyed.Uniq, Keyed.keys_map TradeRow.key_ofEvent]
  refine ⟨h.sublist (List.filter_sublist.map _), fun k hk => ?_⟩
  obtain ⟨e, he, rfl⟩ := List.mem_map.1 hk
  exact of_decide_eq_true (List.mem_filter.1 he).2

/-! ## The probe side -/

theorem find_tradeTs_schema : Trades.schema.find? (·.name == "trade_ts") =
    some ⟨"trade_ts", .timestamp .microsecond (some icebergTz), false⟩ := by decide

/-- Under the table's own schema the predicate can always be built. -/
theorem buildPruningExpr_schema (order : HashOrder) {batch : RecordBatch}
    (hb : batch.schema = Trades.schema) :
    ∃ e, buildPruningExpr order batch Trades.schema = .ok e := by
  have hts : ∃ ts, colAsTimestampMicrosecond batch "trade_ts" = .ok ts := by
    simp only [colAsTimestampMicrosecond, colAs, hb, find_tradeTs_schema]
    exact ⟨_, rfl⟩
  have hex : ∃ ex, colAsString batch "exchange" = .ok ex := by
    have : Trades.schema.find? (·.name == "exchange") = some ⟨"exchange", .utf8, false⟩ := by decide
    simp only [colAsString, colAs, hb, this]
    exact ⟨_, rfl⟩
  have hsym : ∃ sym, colAsString batch "symbol" = .ok sym := by
    have : Trades.schema.find? (·.name == "symbol") = some ⟨"symbol", .utf8, false⟩ := by decide
    simp only [colAsString, colAs, hb, this]
    exact ⟨_, rfl⟩
  exact buildPruningExpr_ok order find_tradeTs_schema rfl hts hex hsym fun _ t _ => ⟨t, rfl⟩

/-- The probe yields the stored rows inside the batch's brackets. -/
theorem scan_eq {order : HashOrder} {batch : RecordBatch} {e : Expr}
    (h : buildPruningExpr order batch Trades.schema = .ok e) (stored : List TradeRow) :
    scan Trades.schema e stored = stored.filter (inBracket (trades batch)) := by
  unfold scan
  rw [find_tradeTs_schema]
  refine List.filter_congr fun r _ => ?_
  rw [Bool.eq_iff_iff, beq_iff_eq, eval_buildPruningExpr find_tradeTs_schema rfl h,
    inBracket_iff_isBracket]
  refine exists_congr fun ex => exists_congr fun day => exists_congr fun lo => exists_congr fun hi =>
    and_congr_right fun _ => and_congr_right fun _ => exists_congr fun v => ?_
  simp only [tsCount, Except.ok.injEq]
  refine ⟨fun hx => ?_, fun hx => ?_⟩
  · obtain ⟨_, _, hv, rfl, rfl, h⟩ := hx
    exact ⟨hv, h⟩
  · obtain ⟨hv, h⟩ := hx
    exact ⟨lo, hi, hv, rfl, rfl, h⟩

/-! ## Running it -/

/-- The session of a connected sink between calls. -/
def Session.idle : Session := ⟨[("icetbl", .iceberg)]⟩

/-- The session with a batch registered as `incoming`. -/
def Session.busy (batch : RecordBatch) : Session :=
  ⟨[("icetbl", .iceberg), ("incoming", .memory batch)]⟩

theorem Session.busy_ne_idle {batch : RecordBatch} : Session.busy batch ≠ .idle := by
  simp [Session.busy, Session.idle]

/-- The world with another session in the sink. -/
def World.withCtx (w : World) (ctx : Session) : World := { w with sink := { w.sink with ctx } }

@[simp] theorem World.withCtx_lake (w : World) (c : Session) : (w.withCtx c).lake = w.lake := rfl
@[simp] theorem World.withCtx_self (w : World) : w.withCtx w.sink.ctx = w := rfl
@[simp] theorem World.withCtx_withCtx (w : World) (c c' : Session) :
    (w.withCtx c).withCtx c' = w.withCtx c' := rfl

section
variable {ops : WriteOps} {batch : RecordBatch} {w w' : World} {name : String}

theorem registerBatch_ok (h : w.sink.ctx = .idle) :
    registerBatch "incoming" batch w = .ok ⟨⟩ (w.withCtx (.busy batch)) := by
  simp [registerBatch, bind_apply, h, Session.register, Session.names, Session.idle, Session.busy,
    World.withCtx]

theorem registerBatch_error (batch : RecordBatch) (h : name ∈ w.sink.ctx.names) :
    ∃ e, registerBatch name batch w = .error e w := by
  simp [registerBatch, bind_apply, Session.register, h]

theorem deregisterTable_ok (h : w.sink.ctx = .busy batch) :
    deregisterTable "incoming" w = .ok ⟨⟩ (w.withCtx .idle) := by
  simp [deregisterTable, h, Session.deregister, Session.idle, Session.busy, World.withCtx]

theorem table_eq (h : w.sink.ctx = .busy batch) :
    table "icetbl" w = .ok .iceberg w ∧ table "incoming" w = .ok (.memory batch) w := by
  simp [table, bind_apply, h, Session.lookup, Session.busy, List.lookup_cons]

theorem dedupProbe_ok (hb : batch.schema = Trades.schema) (hw : w.sink.ctx = .busy batch)
    (hl : ∃ n, ops.loadTable = .ok n) (hf : ∃ tasks, ops.planFiles = .ok tasks)
    (hp : ops.planProbe = .ok ()) : ∃ e probe,
      buildPruningExpr ops.hashOrder batch Trades.schema = .ok e ∧
      dedupProbe ops batch Trades.schema w = .ok (.iceberg, e, probe) w := by
  obtain ⟨e, he⟩ := buildPruningExpr_schema ops.hashOrder hb
  obtain ⟨n, hn⟩ := hl
  obtain ⟨tasks, ht⟩ := hf
  simp [dedupProbe, probeStats, bind_apply, map_apply, he, hn, ht, hp, answer, answerContext,
    (table_eq hw).1]

/-- A probe with a failing operation fails and changes nothing. -/
theorem dedupProbe_error (schema : Schema) (hw : w.sink.ctx = .busy batch)
    (h : ¬((∃ n, ops.loadTable = .ok n) ∧ (∃ tasks, ops.planFiles = .ok tasks) ∧
      ops.planProbe = .ok ())) :
    ∃ e, dedupProbe ops batch schema w = .error e w := by
  unfold dedupProbe
  cases he : buildPruningExpr ops.hashOrder batch schema with
  | error x => exact ⟨x, bind_of_error rfl⟩
  | ok e =>
    cases hn : ops.loadTable with
    | error x => simp [probeStats, bind_apply, hn, answerContext]
    | ok n =>
      cases ht : ops.planFiles with
      | error x => simp [probeStats, bind_apply, hn, ht, answer, answerContext]
      | ok tasks =>
        cases hp : ops.planProbe with
        | ok u => exact absurd ⟨⟨n, hn⟩, ⟨tasks, ht⟩, hp⟩ h
        | error x =>
          simp [probeStats, bind_apply, map_apply, hn, ht, answer, answerContext, (table_eq hw).1]

theorem trades_leftAnti {cand : List TradeRow} : trades (leftAnti batch cand) =
    Keyed.antiJoin TradeRow.key TradeRow.key (trades batch) cand :=
  trades_filter batch fun r => !Keyed.matched TradeRow.key TradeRow.key cand r

/-- **A dedup none of whose operations fails** keeps `dedupRows` and restores the session. -/
theorem dedupedBatch_ok (hb : batch.schema = Trades.schema) (hw : w.sink.ctx = .idle)
    (h : ops.ProbeOk) : ∃ out probe,
      dedupedBatch ops batch Trades.schema w = .ok ([out], probe) w ∧ out.schema = Trades.schema ∧
      trades out = dedupRows w.lake.rows (trades batch) := by
  obtain ⟨hl, hf, hp, hj, hc⟩ := h
  have hctx : (w.withCtx (.busy batch)).sink.ctx = .busy batch := rfl
  obtain ⟨e, probe, he, hpr⟩ := dedupProbe_ok hb hctx hl hf hp
  refine ⟨leftAnti batch (scan Trades.schema e w.lake.rows), probe, ?_, hb, ?_⟩
  · rw [dedupedBatch, bind_of_ok (registerBatch_ok hw), bind_of_ok hpr]
    dsimp only
    rw [bind_of_ok (table_eq hctx).2]
    simp only [hj, hc, answer, bind_apply, providerRows, pure_apply, get_apply,
      deregisterTable_ok hctx, World.withCtx_lake, World.withCtx_withCtx]
    rw [← hw, World.withCtx_self]
  · rw [trades_leftAnti, scan_eq he]
    rfl

/-- With `incoming` registered already the dedup fails at once, and changes nothing. -/
theorem dedupedBatch_taken (ops : WriteOps) (batch : RecordBatch) (schema : Schema)
    (hw : "incoming" ∈ w.sink.ctx.names) :
    ∃ e, dedupedBatch ops batch schema w = .error e w := by
  obtain ⟨e, he⟩ := registerBatch_error batch hw
  exact ⟨e, bind_of_error he⟩

/-- **A dedup with a failing operation leaves its batch registered.** -/
theorem dedupedBatch_failed (hb : batch.schema = Trades.schema) (hw : w.sink.ctx = .idle)
    (h : ¬ops.ProbeOk) :
    ∃ e, dedupedBatch ops batch Trades.schema w = .error e (w.withCtx (.busy batch)) := by
  have hctx : (w.withCtx (.busy batch)).sink.ctx = .busy batch := rfl
  rw [dedupedBatch, bind_of_ok (registerBatch_ok hw)]
  by_cases hp : (∃ n, ops.loadTable = .ok n) ∧ (∃ tasks, ops.planFiles = .ok tasks) ∧
      ops.planProbe = .ok ()
  · obtain ⟨e, probe, -, hpr⟩ := dedupProbe_ok hb hctx hp.1 hp.2.1 hp.2.2
    rw [bind_of_ok hpr]
    dsimp only
    rw [bind_of_ok (table_eq hctx).2]
    cases hj : ops.planJoin with
    | error x => exact ⟨.external x, by simp [bind_apply, answer]⟩
    | ok u =>
      cases hc : ops.collect with
      | error x => exact ⟨.external x, by simp [bind_apply, answer]⟩
      | ok u => exact absurd ⟨hp.1, hp.2.1, hp.2.2, hj, hc⟩ h
  · obtain ⟨e, he⟩ := dedupProbe_error Trades.schema hctx hp
    exact ⟨e, bind_of_error he⟩

end

end Sink
