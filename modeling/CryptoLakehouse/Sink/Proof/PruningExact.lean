import Mathlib.Order.Bounds.Basic
import CryptoLakehouse.Sink.Proof.Dedup

/-!
# What the pruning predicate selects

The predicate in terms of integers. A microsecond count is converted to the table's unit by rounding
down (`ofMicros`), and a count of that unit falls on a UTC day (`dayOf`). The `stamps` of an exchange
and a day are the converted counts of the batch's usable rows: those with no NULL in `trade_ts`,
`exchange` and `symbol`.

* `tsCount_spec` — the literal of a bound is its converted count; it exists unless that overflows.
* `dayOf_ofMicros` — rounding down keeps the day.
* `pruning_exact` — the predicate can be built when the columns have their types and no conversion
  overflows, and then `Selects` says of which rows it holds, whatever order the groups come in.
-/

namespace Sink

open Arrow Trades

/-! ## Units and days -/

/-- A microsecond count in another unit, rounded down. -/
def ofMicros (unit : TimeUnit) (t : Int) : Int :=
  match unit with
  | .second => t / 1000000
  | .millisecond => t / 1000
  | .microsecond => t
  | .nanosecond => t * 1000

/-- The unit's counts in one day. -/
def perDay : TimeUnit → Int
  | .second => 86400
  | .millisecond => 86400000
  | .microsecond => 86400000000
  | .nanosecond => 86400000000000

/-- The UTC day of a count, from the epoch's. -/
def dayOf (unit : TimeUnit) (v : Int) : Int := v / perDay unit

def Overflows (v : Int) : Prop := v < Int64.minValue.toInt ∨ Int64.maxValue.toInt < v

section
variable {unit : TimeUnit} {t t' : Int} {v c : Int64}

theorem ofMicros_mono (h : t ≤ t') : ofMicros unit t ≤ ofMicros unit t' := by
  cases unit <;> simp only [ofMicros] <;> omega

theorem dayOf_mono (h : t ≤ t') : dayOf unit t ≤ dayOf unit t' := by
  cases unit <;> simp only [dayOf, perDay] <;> omega

/-- **Rounding down keeps the day.** -/
theorem dayOf_ofMicros : dayOf unit (ofMicros unit t) = dayOf .microsecond t := by
  cases unit <;> simp only [dayOf, perDay, ofMicros] <;> omega

/-- **The literal of a bound** is its converted count. -/
theorem tsCount_spec : tsCount unit v = .ok c ↔
    ¬Overflows (ofMicros unit v.toInt) ∧ c.toInt = ofMicros unit v.toInt := by
  have h1 := v.le_toInt
  have h2 := v.toInt_lt
  have hmin : Int64.minValue.toInt = -2 ^ 63 := rfl
  have hmax : Int64.maxValue.toInt = 2 ^ 63 - 1 := rfl
  rw [Overflows, hmin, hmax]
  cases unit with
  | second =>
    simp only [tsCount, ofMicros, Except.ok.injEq]
    rw [← Int64.toInt_inj, Int64.toInt_divEuclid (by decide)]
    show v.toInt / 1000000 = _ ↔ _
    omega
  | millisecond =>
    simp only [tsCount, ofMicros, Except.ok.injEq]
    rw [← Int64.toInt_inj, Int64.toInt_divEuclid (by decide)]
    show v.toInt / 1000 = _ ↔ _
    omega
  | microsecond =>
    simp only [tsCount, ofMicros, Except.ok.injEq]
    rw [← Int64.toInt_inj]
    omega
  | nanosecond =>
    simp only [tsCount, ofMicros]
    rw [hmin, hmax]
    split
    · rw [Except.ok.injEq, ← Int64.toInt_inj, Int64.toInt_ofInt_of_le (by omega) (by omega)]
      omega
    · simp only [reduceCtorEq, false_iff]
      omega

/-- A count that does not overflow converts. -/
theorem exists_tsCount (h : ¬Overflows (ofMicros unit v.toInt)) :
    ∃ c, tsCount unit v = .ok c ∧ c.toInt = ofMicros unit v.toInt := by
  have hc : (Int64.ofInt (ofMicros unit v.toInt)).toInt = ofMicros unit v.toInt := by
    have hmin : Int64.minValue.toInt = -2 ^ 63 := rfl
    have hmax : Int64.maxValue.toInt = 2 ^ 63 - 1 := rfl
    have hn := h
    rw [Overflows, hmin, hmax] at hn
    exact Int64.toInt_ofInt_of_le (by omega) (by omega)
  exact ⟨_, tsCount_spec.2 ⟨h, hc⟩, hc⟩

/-- Only nanoseconds overflow. -/
theorem not_overflows (hu : unit ≠ .nanosecond) : ¬Overflows (ofMicros unit v.toInt) := by
  have h1 := v.le_toInt
  have h2 := v.toInt_lt
  have hmin : Int64.minValue.toInt = -2 ^ 63 := rfl
  have hmax : Int64.maxValue.toInt = 2 ^ 63 - 1 := rfl
  rw [Overflows, hmin, hmax]
  cases unit <;> simp only [ofMicros] at * <;> first | omega | exact absurd rfl hu

end

/-! ## What the batch asks for -/

/-- A row of the batch of the exchange and the UTC day, with `trade_ts` `t` and no NULL in the three
columns. -/
def Usable (batch : RecordBatch) (ex : String) (day : Int) (t : Int64) : Prop :=
  (∃ r ∈ trades batch, r.tradeTs = some t ∧ r.exchange = some ex ∧ r.symbol.isSome) ∧
  dayOf .microsecond t.toInt = day

/-- The converted `trade_ts` counts of the batch's usable rows of an exchange and a day. -/
def stamps (unit : TimeUnit) (batch : RecordBatch) (ex : String) (day : Int) : Set Int :=
  {c | ∃ t, Usable batch ex day t ∧ c = ofMicros unit t.toInt}

/-- The columns that the predicate is built from have their types. -/
structure HasColumns (batch : RecordBatch) : Prop where
  tradeTs : ∃ ts, colAsTimestampMicrosecond batch "trade_ts" = .ok ts
  exchange : ∃ ex, colAsString batch "exchange" = .ok ex
  symbol : ∃ sym, colAsString batch "symbol" = .ok sym

/-- What a pruning predicate of the batch holds of, over a table whose `trade_ts` has the unit. -/
structure Selects (unit : TimeUnit) (tz : Option String) (batch : RecordBatch) (e : Expr) :
    Prop where
  /-- The rows between the least and the greatest stamp of their exchange and of some day. -/
  iff_between : ∀ r : TradeRow, e.eval (rowCell unit tz r) = some true ↔
    ∃ ex v, r.exchange = some ex ∧ r.tradeTs = some v ∧ ∃ day lo hi,
      IsLeast (stamps unit batch ex day) lo ∧ IsGreatest (stamps unit batch ex day) hi ∧
      lo ≤ v.toInt ∧ v.toInt ≤ hi
  /-- The exchange and converted `trade_ts` of an incoming row are selected. -/
  incoming : ∀ (r : TradeRow) (ex : String) (v t : Int64) (day : Int), Usable batch ex day t →
    r.exchange = some ex → r.tradeTs = some v → v.toInt = ofMicros unit t.toInt →
    e.eval (rowCell unit tz r) = some true
  /-- Nothing of an exchange and a day that the batch has no usable row of is. -/
  absent : ∀ (r : TradeRow) (ex : String) (v : Int64), r.exchange = some ex → r.tradeTs = some v →
    (∀ t, ¬Usable batch ex (dayOf unit v.toInt) t) → e.eval (rowCell unit tz r) ≠ some true
  /-- A batch without usable rows selects nothing. -/
  unusable : (∀ ex day t, ¬Usable batch ex day t) →
    ∀ r : TradeRow, e.eval (rowCell unit tz r) ≠ some true

section
variable {unit : TimeUnit} {batch : RecordBatch} {ex : String} {day lo hi : Int} {t : Int64}

theorem mem_groupRows_iff_usable {d : Int64} : ((ex, d), t) ∈ groupRows (trades batch) ↔
    Usable batch ex d.toInt t ∧ d = t.divEuclid microsPerDay := by
  rw [mem_groupRows]
  refine ⟨fun h => ?_, fun h => ?_⟩
  · obtain ⟨r, hr, ht, hx, hs, rfl⟩ := h
    refine ⟨⟨⟨r, hr, ht, hx, hs⟩, ?_⟩, rfl⟩
    rw [Int64.toInt_divEuclid (by decide)]
    rfl
  · obtain ⟨⟨⟨r, hr, ht, hx, hs⟩, -⟩, hd⟩ := h
    exact ⟨r, hr, ht, hx, hs, hd⟩

/-- The group of a usable row. -/
theorem Usable.mem_groupRows (h : Usable batch ex day t) :
    ((ex, t.divEuclid microsPerDay), t) ∈ groupRows (trades batch) ∧
      (t.divEuclid microsPerDay).toInt = day := by
  have hd : (t.divEuclid microsPerDay).toInt = day := by
    rw [Int64.toInt_divEuclid (by decide), ← h.2]
    rfl
  exact ⟨mem_groupRows_iff_usable.2 ⟨hd ▸ h, rfl⟩, hd⟩

/-- The bounds of a group are its least and its greatest stamp once converted. -/
theorem isLeast_isGreatest_of_isBracket (unit : TimeUnit) {d lo hi : Int64}
    (h : Bracket.IsBracket (groupRows (trades batch)) (ex, d) lo hi) :
    IsLeast (stamps unit batch ex d.toInt) (ofMicros unit lo.toInt) ∧
      IsGreatest (stamps unit batch ex d.toInt) (ofMicros unit hi.toInt) := by
  obtain ⟨hlo, hhi, hle⟩ := h
  have hb : ∀ c ∈ stamps unit batch ex d.toInt,
      ofMicros unit lo.toInt ≤ c ∧ c ≤ ofMicros unit hi.toInt := by
    intro c hc
    obtain ⟨t, hu, rfl⟩ := hc
    obtain ⟨hm, hd⟩ := hu.mem_groupRows
    rw [Int64.toInt_inj.1 hd] at hm
    obtain ⟨h1, h2⟩ := hle t hm
    exact ⟨ofMicros_mono (Int64.le_iff_toInt_le.1 h1), ofMicros_mono (Int64.le_iff_toInt_le.1 h2)⟩
  exact ⟨⟨⟨lo, (mem_groupRows_iff_usable.1 hlo).1, rfl⟩, fun c hc => (hb c hc).1⟩,
    ⟨⟨hi, (mem_groupRows_iff_usable.1 hhi).1, rfl⟩, fun c hc => (hb c hc).2⟩⟩

/-- A day with a least stamp has a group. -/
theorem exists_isBracket_of_isLeast (h : IsLeast (stamps unit batch ex day) lo) :
    ∃ d lo' hi', d.toInt = day ∧
      Bracket.IsBracket (groupRows (trades batch)) (ex, d) lo' hi' := by
  obtain ⟨t, hu, -⟩ := h.1
  obtain ⟨hm, hd⟩ := hu.mem_groupRows
  obtain ⟨lo', hi', hb⟩ := Bracket.exists_isBracket Int64.le_maxVal Int64.minVal_le hm
  exact ⟨_, lo', hi', hd, hb⟩

end

/-! ## What the predicate selects -/

section
variable {order : HashOrder} {batch : RecordBatch} {schema : Schema} {unit : TimeUnit}
  {tz : Option String} {f : Field} {e : Expr}

theorem eval_iff_between (hf : schema.find? (·.name == "trade_ts") = some f)
    (hdt : f.dataType = .timestamp unit tz)
    (hconv : ∀ ex day t, Usable batch ex day t → ¬Overflows (ofMicros unit t.toInt))
    (h : buildPruningExpr order batch schema = .ok e) (r : TradeRow) :
    e.eval (rowCell unit tz r) = some true ↔
    ∃ ex v, r.exchange = some ex ∧ r.tradeTs = some v ∧ ∃ day lo hi,
      IsLeast (stamps unit batch ex day) lo ∧ IsGreatest (stamps unit batch ex day) hi ∧
      lo ≤ v.toInt ∧ v.toInt ≤ hi := by
  rw [eval_buildPruningExpr hf hdt h]
  refine ⟨fun hx => ?_, fun hx => ?_⟩
  · obtain ⟨ex, d, lo, hi, hb, hex, v, lo', hi', hv, hlo, hhi, h1, h2⟩ := hx
    obtain ⟨hl, hg⟩ := isLeast_isGreatest_of_isBracket unit hb
    rw [← (tsCount_spec.1 hlo).2] at hl
    rw [← (tsCount_spec.1 hhi).2] at hg
    exact ⟨ex, v, hex, hv, d.toInt, _, _, hl, hg, Int64.le_iff_toInt_le.1 h1,
      Int64.le_iff_toInt_le.1 h2⟩
  · obtain ⟨ex, v, hex, hv, day, lo, hi, hl, hg, h1, h2⟩ := hx
    obtain ⟨d, lo', hi', rfl, hb⟩ := exists_isBracket_of_isLeast hl
    obtain ⟨hl', hg'⟩ := isLeast_isGreatest_of_isBracket unit hb
    obtain rfl := hl.unique hl'
    obtain rfl := hg.unique hg'
    -- The bounds are usable rows' counts, so they convert.
    have hlit : ∀ t : Int64, ((ex, d), t) ∈ groupRows (trades batch) →
        ∃ c, tsCount unit t = .ok c ∧ c.toInt = ofMicros unit t.toInt := by
      intro t ht
      exact exists_tsCount (hconv _ _ _ (mem_groupRows_iff_usable.1 ht).1)
    obtain ⟨cl, hcl, hel⟩ := hlit lo' hb.1
    obtain ⟨ch, hch, heh⟩ := hlit hi' hb.2.1
    refine ⟨ex, d, lo', hi', hb, hex, v, cl, ch, hv, hcl, hch, ?_, ?_⟩
    · rwa [Int64.le_iff_toInt_le, hel]
    · rwa [Int64.le_iff_toInt_le, heh]

/-- **The pruning predicate is exactly the union of the batch's brackets**, whatever the unit of the
table and the order of the groups. -/
theorem pruning_exact (order : HashOrder) (hb : HasColumns batch)
    (hf : schema.find? (·.name == "trade_ts") = some f) (hdt : f.dataType = .timestamp unit tz)
    (hconv : ∀ ex day t, Usable batch ex day t → ¬Overflows (ofMicros unit t.toInt)) :
    ∃ e, buildPruningExpr order batch schema = .ok e ∧ Selects unit tz batch e := by
  have hbuilt : ∃ e, buildPruningExpr order batch schema = .ok e := by
    refine buildPruningExpr_ok order hf hdt hb.tradeTs hb.exchange hb.symbol fun g t ht => ?_
    obtain ⟨c, hc, -⟩ := exists_tsCount (hconv _ _ _ (mem_groupRows_iff_usable.1 ht).1)
    exact ⟨c, hc⟩
  obtain ⟨e, he⟩ := hbuilt
  have hiff := eval_iff_between hf hdt hconv he
  refine ⟨e, he, hiff, ?_, ?_, ?_⟩
  · intro r ex v t day hu hx hv hvt
    -- The row's own count lies between the bounds of its group.
    obtain ⟨hm, hd⟩ := hu.mem_groupRows
    obtain ⟨lo, hi, hbr⟩ := Bracket.exists_isBracket Int64.le_maxVal Int64.minVal_le hm
    obtain ⟨hl, hg⟩ := isLeast_isGreatest_of_isBracket unit hbr
    rw [hd] at hl hg
    have hmem : v.toInt ∈ stamps unit batch ex day := ⟨t, hu, hvt⟩
    exact (hiff r).2 ⟨ex, v, hx, hv, day, _, _, hl, hg, hl.2 hmem, hg.2 hmem⟩
  · intro r ex v hx hv hno h
    obtain ⟨ex', v', hx', hv', day, lo, hi, hl, hg, h1, h2⟩ := (hiff r).1 h
    obtain rfl := Option.some.inj (hx.symm.trans hx')
    obtain rfl := Option.some.inj (hv.symm.trans hv')
    obtain ⟨tl, hul, rfl⟩ := hl.1
    obtain ⟨th, huh, rfl⟩ := hg.1
    -- Both bounds are of the one day, so what is between them is too.
    have hday : dayOf unit v.toInt = day := by
      refine le_antisymm ?_ ?_
      · rw [← huh.2, ← @dayOf_ofMicros unit]
        exact dayOf_mono h2
      · rw [← hul.2, ← @dayOf_ofMicros unit]
        exact dayOf_mono h1
    exact hno tl (hday ▸ hul)
  · intro hno r h
    obtain ⟨ex, v, -, -, day, lo, hi, hl, -⟩ := (hiff r).1 h
    obtain ⟨t, hu, -⟩ := hl.1
    exact hno ex day t hu

/-- Three trades, two of them on one day, probed in a table that counts seconds. -/
theorem pruning_exact_seconds : ∃ e,
    buildPruningExpr .inserted (outputBatch
      [.ofEvent (btcTrade 1 1500), .ofEvent (btcTrade 2 90000000), .ofEvent (btcTrade 3 2500)])
      [⟨"trade_ts", .timestamp .second none, false⟩] = .ok e ∧
    Selects .second none (outputBatch
      [.ofEvent (btcTrade 1 1500), .ofEvent (btcTrade 2 90000000), .ofEvent (btcTrade 3 2500)]) e :=
  pruning_exact .inserted ⟨⟨_, rfl⟩, ⟨_, rfl⟩, ⟨_, rfl⟩⟩ rfl rfl
    fun _ _ _ _ => not_overflows TimeUnit.noConfusion

end

end Sink
