import Mathlib.Data.Finset.Card
import CryptoLakehouse.Query.DailyCount
import CryptoLakehouse.Query.Proof.DayByDay

/-!
# The daily count and the audit

crypto-iceberg-query counts the rows of each day, and its distinct `concat` texts; crypto-dedup
audits a day's rows and those that repeat a key.

* `length_rewrite` — the audit's rows without its duplicates are the distinct keys of the window.
* `group_eq` — a day that is listed has the rows of the day's window, when the range is of days.
* `agrees_iff` — the two agree exactly when no row is at the end of the range, and no two keys of a
  day have one text.
-/

namespace Query.Daily

open Sink Trades

/-! ## Distinct values -/

theorem length_dedup_map_iff {α β : Type} [DecidableEq α] [DecidableEq β] (f : α → β)
    (l : List α) : (l.map f).dedup.length = l.dedup.length ↔
      ∀ a ∈ l, ∀ b ∈ l, f a = f b → a = b := by
  have himage : (l.map f).toFinset = l.toFinset.image f := by
    ext b
    simp
  rw [← List.card_toFinset, ← List.card_toFinset, himage, Finset.card_image_iff]
  simp [Set.InjOn]

/-- How many keys a window has. -/
theorem length_rewrite (order : RowOrder) (source : List TradeRow) (start stop : Int64) :
    (Dedup.rewrite order source start stop).length =
      ((source.filter (inRange start stop)).map partKey).dedup.length := by
  have hsel := Dedup.rewrite_selects order source start stop
  have hp : ((Dedup.rewrite order source start stop).map partKey).Perm
      ((source.filter (inRange start stop)).map partKey).dedup :=
    (List.perm_ext_iff_of_nodup hsel.nodup (List.nodup_dedup _)).2 fun p => by
      rw [List.mem_dedup, hsel.covers]
  rw [← hp.length_eq, List.length_map]

/-! ## Days -/

/-- The first instant of a day. -/
def dayStart (d : Int) : Int64 := .ofInt (d * microsPerDay.toInt)

/-- What crypto-dedup audits for a day. -/
def auditDay (order : RowOrder) (source : List TradeRow) (d : Int64) : Dedup.Audit :=
  Dedup.audit order source (dayStart d.toInt) (dayStart (d.toInt + 1))

/-- The two tools agree over a range: its days only are listed, and each with the audit's counts. -/
def Agrees (order : RowOrder) (source : List TradeRow) (start stop : Int64) : Prop :=
  ∀ c ∈ daySql source start stop,
    start.divEuclid microsPerDay ≤ c.day ∧ c.day < stop.divEuclid microsPerDay ∧
      c.cnt = (auditDay order source c.day).rowsInRange ∧
      c.cntDist = (auditDay order source c.day).rowsInRange -
        (auditDay order source c.day).duplicateRows

/-- The time is the start of a day. -/
def DayAligned (t : Int64) : Prop := microsPerDay.toInt ∣ t.toInt

section
variable {order : RowOrder} {source : List TradeRow} {start stop t d : Int64} {r : TradeRow}

theorem microsPerDay_toInt : microsPerDay.toInt = 86400000000 := by decide

theorem toInt_day (t : Int64) : (t.divEuclid microsPerDay).toInt = t.toInt / 86400000000 := by
  rw [Int64.toInt_divEuclid (by decide), microsPerDay_toInt]

theorem between_iff : between start stop r = true ↔
    ∃ t, r.tradeTs = some t ∧ start ≤ t ∧ t ≤ stop := by
  unfold between
  cases r.tradeTs <;> simp

/-- A day of the range is in it as a whole. -/
theorem toInt_dayStart (hstart : DayAligned start) (hstop : DayAligned stop)
    (h1 : start.divEuclid microsPerDay ≤ d) (h2 : d < stop.divEuclid microsPerDay) :
    (dayStart d.toInt).toInt = d.toInt * 86400000000 ∧
    (dayStart (d.toInt + 1)).toInt = (d.toInt + 1) * 86400000000 ∧
    start.toInt ≤ d.toInt * 86400000000 ∧ (d.toInt + 1) * 86400000000 ≤ stop.toInt := by
  unfold DayAligned at hstart hstop
  rw [microsPerDay_toInt] at hstart hstop
  rw [Int64.le_iff_toInt_le, toInt_day] at h1
  rw [Int64.lt_iff_toInt_lt, toInt_day] at h2
  have hlo := start.le_toInt
  have hhi := stop.toInt_lt
  have ha : start.toInt ≤ d.toInt * 86400000000 := by omega
  have hb : (d.toInt + 1) * 86400000000 ≤ stop.toInt := by omega
  refine ⟨?_, ?_, ha, hb⟩
  · rw [dayStart, microsPerDay_toInt, Int64.toInt_ofInt_of_le (by omega) (by omega)]
  · rw [dayStart, microsPerDay_toInt, Int64.toInt_ofInt_of_le (by omega) (by omega)]

/-- The rows that are listed under a day. -/
def group (source : List TradeRow) (start stop d : Int64) : List TradeRow :=
  (source.filter (between start stop)).filter fun r => day r == some d

theorem mem_group : r ∈ group source start stop d ↔
    r ∈ source ∧ between start stop r = true ∧ day r = some d := by
  rw [group, List.mem_filter, List.mem_filter, beq_iff_eq, and_assoc]

/-- **The rows of a listed day** are those of the day's window. -/
theorem group_eq (hstart : DayAligned start) (hstop : DayAligned stop)
    (h1 : start.divEuclid microsPerDay ≤ d) (h2 : d < stop.divEuclid microsPerDay) :
    group source start stop d =
      source.filter (inRange (dayStart d.toInt) (dayStart (d.toInt + 1))) := by
  obtain ⟨hd, hd', hlo, hhi⟩ := toInt_dayStart hstart hstop h1 h2
  rw [group, List.filter_filter]
  refine List.filter_congr fun r _ => Bool.eq_iff_iff.2 ?_
  rw [Bool.and_eq_true, between_iff, Dedup.inRange_iff, beq_iff_eq, day]
  cases r.tradeTs with
  | none => simp
  | some t =>
    simp only [Option.map_some, Option.some.injEq, exists_eq_left']
    rw [← Int64.toInt_inj, toInt_day]
    simp only [Int64.le_iff_toInt_le, Int64.lt_iff_toInt_lt, hd, hd']
    omega

theorem mem_daySql {c : DayCount} : c ∈ daySql source start stop ↔
    ∃ d, (∃ r, r ∈ group source start stop d) ∧ c = ⟨d, (group source start stop d).length,
      ((group source start stop d).map concat).dedup.length⟩ := by
  unfold daySql
  simp only [List.mem_map, (List.perm_insertionSort _ _).mem_iff, List.mem_dedup,
    List.mem_filterMap, List.mem_filter, mem_group, and_assoc]
  exact exists_congr fun d => and_congr_right fun _ => eq_comm

/-- A row before the end of the range is on a day of the range. -/
theorem day_lt_iff (hstart : DayAligned start) (hstop : DayAligned stop)
    (hb : between start stop r = true) (hd : day r = some d) :
    (start.divEuclid microsPerDay ≤ d ∧ d < stop.divEuclid microsPerDay) ↔
      r.tradeTs ≠ some stop := by
  obtain ⟨t, ht, h1, h2⟩ := between_iff.1 hb
  unfold DayAligned at hstart hstop
  rw [microsPerDay_toInt] at hstart hstop
  rw [Int64.le_iff_toInt_le] at h1 h2
  rw [day, ht, Option.map_some, Option.some.injEq] at hd
  subst hd
  rw [ht, ne_eq, Option.some.injEq, ← Int64.toInt_inj, Int64.le_iff_toInt_le,
    Int64.lt_iff_toInt_lt, toInt_day, toInt_day, toInt_day]
  omega

/-- A row of the half-open range, and the day it is listed under. -/
theorem between_of_inRange (h : inRange start stop r = true) :
    between start stop r = true ∧ r.tradeTs ≠ some stop ∧ ∃ d, day r = some d := by
  obtain ⟨t, ht, h1, h2⟩ := Dedup.inRange_iff.1 h
  refine ⟨between_iff.2 ⟨t, ht, h1, le_of_lt h2⟩, fun hx => ?_, ⟨_, by rw [day, ht]; rfl⟩⟩
  obtain rfl := Option.some.inj (ht.symm.trans hx)
  exact absurd h2 (lt_irrefl _)

theorem inRange_of_between (hb : between start stop r = true) (hne : r.tradeTs ≠ some stop) :
    inRange start stop r = true := by
  obtain ⟨t, ht, h1, h2⟩ := between_iff.1 hb
  refine Dedup.inRange_iff.2 ⟨t, ht, h1, lt_of_le_of_ne h2 fun hx => ?_⟩
  exact hne (hx ▸ ht)

/-! ## One day -/

/-- The text of a key. -/
def keyText (p : Option String × Option String × Option Int64) : String :=
  p.1.getD "" ++ (p.2.2.map toString).getD "" ++ p.2.1.getD ""

theorem concat_eq (r : TradeRow) : concat r = keyText (partKey r) := rfl

/-- The audit of a day of the range, by the rows that are listed under it. -/
theorem auditDay_eq (order : RowOrder) (source : List TradeRow) (hstart : DayAligned start)
    (hstop : DayAligned stop) (h1 : start.divEuclid microsPerDay ≤ d)
    (h2 : d < stop.divEuclid microsPerDay) :
    (auditDay order source d).rowsInRange = (group source start stop d).length ∧
      (auditDay order source d).rowsInRange - (auditDay order source d).duplicateRows =
        ((group source start stop d).map partKey).dedup.length := by
  have hsum := Dedup.audit_rowsInRange order order source (dayStart d.toInt)
    (dayStart (d.toInt + 1))
  rw [length_rewrite, ← group_eq hstart hstop h1 h2] at hsum
  constructor
  · rw [auditDay, Dedup.rowsInRange_eq, ← group_eq hstart hstop h1 h2]
  · rw [auditDay, hsum, Nat.add_sub_cancel]

/-- **The distinct texts of a day** are as many as its keys when no two keys have one text. -/
theorem length_texts_iff (rows : List TradeRow) :
    (rows.map concat).dedup.length = (rows.map partKey).dedup.length ↔
      ∀ r ∈ rows, ∀ r' ∈ rows, concat r = concat r' → partKey r = partKey r' := by
  have hmap : rows.map concat = (rows.map partKey).map keyText := by
    rw [List.map_map]
    rfl
  rw [hmap, length_dedup_map_iff]
  simp only [List.forall_mem_map]
  exact Iff.rfl

end

/-! ## The range -/

/-- No row is at the end of the range. -/
def NoneAtEnd (source : List TradeRow) (start stop : Int64) : Prop :=
  start ≤ stop → ∀ r ∈ source, r.tradeTs ≠ some stop

/-- Rows of one day with one text have one key. -/
def TextsDistinct (source : List TradeRow) (start stop : Int64) : Prop :=
  ∀ r ∈ source, ∀ r' ∈ source, inRange start stop r = true → inRange start stop r' = true →
    day r = day r' → concat r = concat r' → partKey r = partKey r'

instance instDecidableDayAligned (t : Int64) : Decidable (DayAligned t) :=
  inferInstanceAs (Decidable (_ ∣ _))

instance instDecidableAgrees (order : RowOrder) (source : List TradeRow) (start stop : Int64) :
    Decidable (Agrees order source start stop) :=
  inferInstanceAs (Decidable (∀ c ∈ daySql source start stop, _ ∧ _ ∧ _ ∧ _))

instance instDecidableNoneAtEnd (source : List TradeRow) (start stop : Int64) :
    Decidable (NoneAtEnd source start stop) :=
  inferInstanceAs (Decidable (_ → ∀ r ∈ source, _))

instance instDecidableTextsDistinct (source : List TradeRow) (start stop : Int64) :
    Decidable (TextsDistinct source start stop) :=
  inferInstanceAs (Decidable (∀ r ∈ source, ∀ r' ∈ source, _ → _ → _ → _ → _))

/-- **When the daily count and the audit agree** over a range of days. -/
theorem agrees_iff (order : RowOrder) (source : List TradeRow) {start stop : Int64}
    (hstart : DayAligned start) (hstop : DayAligned stop) :
    Agrees order source start stop ↔
      NoneAtEnd source start stop ∧ TextsDistinct source start stop := by
  refine ⟨fun h => ?_, fun hx c hc => ?_⟩
  · have hlisted : ∀ r ∈ source, between start stop r = true → r.tradeTs ≠ some stop := by
      intro r hr hb
      obtain ⟨t, ht, -, -⟩ := between_iff.1 hb
      have hd : day r = some (t.divEuclid microsPerDay) := by rw [day, ht]; rfl
      obtain ⟨h1, h2, -⟩ := h _ (mem_daySql.2 ⟨_, ⟨r, mem_group.2 ⟨hr, hb, hd⟩⟩, rfl⟩)
      exact (day_lt_iff hstart hstop hb hd).1 ⟨h1, h2⟩
    refine ⟨fun hle r hr hx => ?_, fun r hr r' hr' hin hin' hday hconcat => ?_⟩
    · exact hlisted r hr (between_iff.2 ⟨stop, hx, hle, le_refl _⟩) hx
    · obtain ⟨hb, hne, d, hd⟩ := between_of_inRange hin
      have hb' := (between_of_inRange hin').1
      have hg := mem_group.2 ⟨hr, hb, hd⟩
      obtain ⟨h1, h2, -, hdist⟩ := h _ (mem_daySql.2 ⟨_, ⟨r, hg⟩, rfl⟩)
      rw [(auditDay_eq order source hstart hstop h1 h2).2] at hdist
      have hg' := mem_group.2 ⟨hr', hb', hday.symm.trans hd⟩
      exact (length_texts_iff _).1 hdist r hg r' hg' hconcat
  · obtain ⟨hend, htexts⟩ := hx
    obtain ⟨d, ⟨r, hg⟩, rfl⟩ := mem_daySql.1 hc
    have hin : ∀ r ∈ source, between start stop r = true → inRange start stop r = true := by
      intro r hr hb
      obtain ⟨t, -, ht1, ht2⟩ := between_iff.1 hb
      exact inRange_of_between hb (hend (le_trans ht1 ht2) r hr)
    obtain ⟨hr, hb, hd⟩ := mem_group.1 hg
    have hne := (between_of_inRange (hin r hr hb)).2.1
    obtain ⟨h1, h2⟩ := (day_lt_iff hstart hstop hb hd).2 hne
    obtain ⟨hcnt, hdist⟩ := auditDay_eq order source hstart hstop h1 h2
    refine ⟨h1, h2, hcnt.symm, ?_⟩
    rw [hdist]
    refine (length_texts_iff _).2 fun a ha b hb hab => ?_
    obtain ⟨ha, hba, hda⟩ := mem_group.1 ha
    obtain ⟨hb, hbb, hdb⟩ := mem_group.1 hb
    exact htexts a ha b hb (hin a ha hba) (hin b hb hbb) (hda.trans hdb.symm) hab

/-- A trade of the given symbol on day 0. -/
def tradeOf (symbol : String) (tradeId : UInt64) : TradeRow :=
  .ofEvent { btcTrade tradeId 1000 with symbol }

theorem agrees_iff_week :
    Agrees stableOrder [tradeOf "BTCUSDT" 1, tradeOf "BTCUSDT" 1, tradeOf "ETHUSDT" 1] 0
      604800000000 :=
  (agrees_iff stableOrder [tradeOf "BTCUSDT" 1, tradeOf "BTCUSDT" 1, tradeOf "ETHUSDT" 1]
    (by decide) (by decide)).2 (by decide +kernel)

/-- Trade 1 of 1INCHUSDT and trade 11 of INCHUSDT are one text, and trades at midnight are listed
under the day after. -/
theorem two_keys_one_text :
    ¬Agrees stableOrder [tradeOf "1INCHUSDT" 1, tradeOf "INCHUSDT" 11] 0 86400000000 ∧
    ¬Agrees stableOrder [.ofEvent (btcTrade 1 86400000)] 0 86400000000 := by
  decide +kernel

end Query.Daily
