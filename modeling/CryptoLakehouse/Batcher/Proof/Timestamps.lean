import CryptoLakehouse.Lib.Int64
import CryptoLakehouse.Schema

/-!
# Timestamps of a micro-batch

`to_record_batch` multiplies the signed milliseconds of the wire by 1000. Nothing before restricts
them to what the product can hold, and what the product does then depends on the build
(`toRecordBatchIn`): a release build wraps, a debug build panics.

* `toInt_micros` — the product is exact when the milliseconds are `InMicros`.
* `exactTimes_iff` — so a batch has exact timestamps, and every row that can have them, exactly when
  all its events are in that range.
-/

namespace Trades

open Arrow

/-! ## The two builds -/

inductive Build
  | debug | release
deriving DecidableEq

/-- The milliseconds whose microseconds an `i64` holds. -/
def InMicros (ms : Int64) : Prop := -9223372036854775 ≤ ms.toInt ∧ ms.toInt ≤ 9223372036854775

instance instDecidableInMicros (ms : Int64) : Decidable (InMicros ms) :=
  inferInstanceAs (Decidable (_ ∧ _))

/-- Both times of the event can be counted in microseconds. -/
def TradeEvent.InMicros (e : TradeEvent) : Prop :=
  Trades.InMicros e.tradeTime.toInt64 ∧ Trades.InMicros e.eventTime.toInt64

instance instDecidableEventInMicros (e : TradeEvent) : Decidable e.InMicros :=
  inferInstanceAs (Decidable (_ ∧ _))

/-- The writer gets past the event, in either build: its times can be counted in microseconds, and
its day is before the year 262143, which is where iceberg's day transform starts to panic. -/
def TradeEvent.Writable (e : TradeEvent) : Prop :=
  e.InMicros ∧ e.tradeTime < 8210266876800000

instance instDecidableWritable (e : TradeEvent) : Decidable e.Writable :=
  inferInstanceAs (Decidable (_ ∧ _))

/-- The two products of one loop iteration: in a debug build one that overflows panics. -/
def TradeEvent.multiplied (build : Build) (row : TradeEvent) : Except Error Unit :=
  match build with
  | .release => .ok ()
  | .debug =>
    if row.InMicros then .ok () else .error (.panic "attempt to multiply with overflow")

/-- `toRecordBatch` in a build: the loop, and the batch of what it has appended. -/
def toRecordBatchIn (build : Build) (arrowSchema : Schema) (rows : List TradeEvent) :
    Except Error RecordBatch := do
  forM rows (TradeEvent.multiplied build)
  toRecordBatch arrowSchema rows

/-! ## The products -/

section
variable {ms ms' : Int64}

/-- **The product is exact** in the range. -/
theorem toInt_micros (h : InMicros ms) : (ms * microsPerMilli).toInt = 1000 * ms.toInt := by
  obtain ⟨h1, h2⟩ := h
  rw [Int64.toInt_mul, show microsPerMilli.toInt = 1000 by rfl,
    Int.bmod_eq_of_le (by omega) (by omega)]
  omega

/-- Outside it no `i64` is. -/
theorem inMicros_iff : InMicros ms ↔ ∃ c : Int64, c.toInt = 1000 * ms.toInt := by
  refine ⟨fun h => ?_, fun h => ?_⟩
  · exact ⟨_, toInt_micros h⟩
  · obtain ⟨c, hc⟩ := h
    have h1 := c.le_toInt
    have h2 := c.toInt_lt
    rw [InMicros]
    omega

theorem micros_le_micros (h : InMicros ms) (h' : InMicros ms') :
    ms * microsPerMilli ≤ ms' * microsPerMilli ↔ ms ≤ ms' := by
  rw [Int64.le_iff_toInt_le, Int64.le_iff_toInt_le, toInt_micros h, toInt_micros h']
  omega

end

/-! ## The batch -/

/-- Some `i64` is the trade time in microseconds, and some is the event time. -/
def TradeEvent.Countable (e : TradeEvent) : Prop :=
  (∃ c : Int64, c.toInt = 1000 * e.tradeTime.toInt64.toInt) ∧
  ∃ c : Int64, c.toInt = 1000 * e.eventTime.toInt64.toInt

theorem countable_iff {e : TradeEvent} : e.Countable ↔ e.InMicros :=
  and_congr inMicros_iff.symm inMicros_iff.symm

instance instDecidableCountable (e : TradeEvent) : Decidable e.Countable :=
  decidable_of_iff _ countable_iff.symm

/-- A row's timestamps are its times in microseconds. -/
structure ExactRow (r : TradeRow) : Prop where
  trade : ∃ t c, r.tradeTime = some t ∧ r.tradeTs = some c ∧ c.toInt = 1000 * t.toInt
  event : ∃ t c, r.eventTime = some t ∧ r.eventTs = some c ∧ c.toInt = 1000 * t.toInt

/-- `trade_ts` orders the rows as `trade_time` does. -/
def SameOrder (rows : List TradeRow) : Prop :=
  ∀ r ∈ rows, ∀ r' ∈ rows, ∀ t t' c c', r.tradeTime = some t → r'.tradeTime = some t' →
    r.tradeTs = some c → r'.tradeTs = some c' → (c ≤ c' ↔ t ≤ t')

/-- The conversion succeeds, with the events that can be counted in microseconds and without the
others, and the timestamps of its rows are exact. -/
def ExactTimes (build : Build) (rows : List TradeEvent) : Prop :=
  ∃ b, toRecordBatchIn build schema rows = .ok b ∧
    trades b = (rows.filter fun e => e.Countable).map .ofEvent ∧
    (∀ r ∈ trades b, ExactRow r) ∧ SameOrder (trades b)

section
variable {build : Build} {rows : List TradeEvent}

theorem exactRow_ofEvent {e : TradeEvent} (h : e.InMicros) : ExactRow (.ofEvent e) :=
  ⟨⟨_, _, rfl, rfl, toInt_micros h.1⟩, ⟨_, _, rfl, rfl, toInt_micros h.2⟩⟩

theorem sameOrder_ofEvent (h : ∀ e ∈ rows, e.InMicros) : SameOrder (rows.map .ofEvent) := by
  intro r hr r' hr' t t' c c' ht ht' hc hc'
  obtain ⟨e, he, rfl⟩ := List.mem_map.1 hr
  obtain ⟨e', he', rfl⟩ := List.mem_map.1 hr'
  cases ht
  cases ht'
  cases hc
  cases hc'
  exact micros_le_micros (h e he).1 (h e' he').1

/-- The products of a loop that reaches its end. -/
theorem forM_multiplied : forM rows (TradeEvent.multiplied build) = Except.ok () ↔
    build = .debug → ∀ e ∈ rows, e.InMicros := by
  induction rows with
  | nil => exact iff_of_true rfl fun _ e he => absurd he List.not_mem_nil
  | cons e rows ih =>
    rw [List.forM_cons, List.forall_mem_cons]
    cases build with
    | release => exact ih.trans ⟨fun _ h => (nomatch h), fun _ h => (nomatch h)⟩
    | debug =>
      by_cases he : e.InMicros
      · have hm : e.multiplied .debug = .ok () := if_pos he
        rw [hm]
        exact ih.trans ⟨fun h hd => ⟨he, h hd⟩, fun h hd => (h hd).2⟩
      · simp [TradeEvent.multiplied, he, bind, Except.bind]

/-- In either build a finished conversion holds all its events. -/
theorem toRecordBatchIn_eq_ok {b : RecordBatch} (h : toRecordBatchIn build schema rows = .ok b) :
    forM rows (TradeEvent.multiplied build) = Except.ok () ∧ trades b = rows.map .ofEvent := by
  obtain ⟨b', hb', -, ht⟩ := toRecordBatch_schema rows
  simp only [toRecordBatchIn, Except.bind_eq_ok] at h
  obtain ⟨u, hu, h⟩ := h
  rw [hb'] at h
  cases h
  exact ⟨hu, ht⟩

end

/-- **When timestamps are exact**: exactly for the batches all whose times, read as signed
milliseconds, can be counted in microseconds. -/
theorem exactTimes_iff (build : Build) (rows : List TradeEvent) :
    ExactTimes build rows ↔ ∀ e ∈ rows, e.InMicros := by
  refine ⟨fun h => ?_, fun h => ?_⟩
  · obtain ⟨b, hb, ht, -⟩ := h
    -- The conversion leaves no event out, so the filter must not either.
    have hall := (toRecordBatchIn_eq_ok hb).2
    rw [hall] at ht
    have hlen := congrArg List.length ht
    rw [List.length_map, List.length_map] at hlen
    have := List.length_filter_eq_length_iff.1 hlen.symm
    intro e he
    exact countable_iff.1 (of_decide_eq_true (this e he))
  · obtain ⟨b, hb, -, ht⟩ := toRecordBatch_schema rows
    refine ⟨b, ?_, ?_, ?_, ?_⟩
    · simp only [toRecordBatchIn, forM_multiplied.2 fun _ => h, bind, Except.bind]
      exact hb
    · rw [ht, List.filter_eq_self.2 fun e he => decide_eq_true (countable_iff.2 (h e he))]
    · intro r hr
      rw [ht] at hr
      obtain ⟨e, he, rfl⟩ := List.mem_map.1 hr
      exact exactRow_ofEvent (h e he)
    · rw [ht]
      exact sameOrder_ofEvent h

/-- The first millisecond past the range: in a debug build `to_record_batch` panics on it, and in a
release build the product wraps to a time in the far past. No such row is filed, for that day is past
the range of the writer's day transform as well. -/
theorem times_overflow :
    (btcTrade 1 9223372036854776).tradeTs.toInt = -9223372036854775616 ∧
    ¬ExactTimes .debug [btcTrade 1 9223372036854776] ∧
    ¬ExactTimes .release [btcTrade 1 9223372036854776] := by
  refine ⟨by decide, fun h => ?_, fun h => ?_⟩
  · obtain ⟨b, hb, -⟩ := h
    exact absurd (forM_multiplied.1 (toRecordBatchIn_eq_ok hb).1 rfl) (by decide)
  · obtain ⟨b, hb, ht, -⟩ := h
    rw [(toRecordBatchIn_eq_ok hb).2] at ht
    exact absurd (congrArg List.length ht) (by decide)

end Trades
