import CryptoLakehouse.Query.Proof.Candidates

/-!
# What the audit promises

The audit counts what `--execute` would do. Most of it holds of every table: the join to the append
list does not fan out (`joined_eq`), a row of the window is a first row or a repeat
(`audit_duplicateRows`), and a first row is on the append list, incomplete, or of a key that the
target holds (`length_firstRows_split`).

That `rows_to_append` is the number of rows appended rests on how ties are resolved: a key is listed
when its first row is complete, and `ORDER BY event_ts, trade_ts` does not say which of two rows of
one rank is first. `audit_predicts_iff` has the tables on which this does not matter.
-/

namespace Query.Backfill

open Trades Sink

section
variable {order order' : RowOrder} {source target : List TradeRow} {start stop marginDays : Int64}
  {r f : TradeRow} {k : Key}

/-! ## The joined rows -/

theorem exists_key_of_complete (h : complete r = true) : ∃ k, r.key = some k := by
  obtain ⟨-, hs, he, hi, -⟩ := complete_iff.1 h
  exact exists_key_of_isSome he hs hi

theorem uniq_missing :
    Keyed.Uniq TradeRow.key (missing order source target start stop marginDays) := by
  rw [missing_eq]
  exact uniq_firstRows.sublist List.filter_sublist

theorem mem_keys_missing :
    k ∈ Keyed.keys TradeRow.key (missing order source target start stop marginDays) ↔
      k ∉ heldKeys target start stop marginDays ∧
      ∃ r ∈ firstRows order (source.filter (inRange start stop)),
        complete r = true ∧ r.key = some k := by
  rw [← keys_candidates, mem_keys_candidates]

theorem length_keys_missing :
    (Keyed.keys TradeRow.key (missing order source target start stop marginDays)).length =
      (missing order source target start stop marginDays).length := by
  refine Keyed.length_keys fun r hr => ?_
  obtain ⟨k, hk⟩ := exists_key_of_complete (mem_missing.1 hr).2.1
  rw [hk]
  rfl

theorem complete_of_mem_srcRanked {s : SrcRanked} (h : s ∈ srcRanked order source start stop) :
    s.complete = complete s.row ∧ 0 < s.rn := by
  obtain ⟨p, hp, rfl⟩ := List.mem_map.1 h
  exact ⟨rfl, Window.numberFrom_pos hp⟩

@[simp] theorem length_srcRanked :
    (srcRanked order source start stop).length = (source.filter (inRange start stop)).length := by
  rw [srcRanked, List.length_map, Window.length_rowNumber, (order.perm _).length_eq]

/-- Counting ranked rows numbered 1 is counting first rows. -/
theorem countP_srcRanked (q : TradeRow → Bool) :
    (srcRanked order source start stop).countP (fun s => s.rn == 1 && q s.row) =
      (firstRows order (source.filter (inRange start stop))).countP q := by
  rw [srcRanked, List.countP_map, firstRows, Window.firsts, Window.firstsFrom, List.countP_map,
    List.countP_filter]
  refine List.countP_congr fun p _ => ?_
  show (p.2 == 1 && q p.1) = true ↔ (q p.1 && p.2 == 1) = true
  rw [Bool.and_comm]

/-- The candidate that a ranked row joins to. -/
def candidate (order' : RowOrder) (source target : List TradeRow) (start stop marginDays : Int64)
    (s : SrcRanked) : Option TradeRow :=
  Keyed.partner (fun s : SrcRanked => s.row.key) TradeRow.key
    (missing order' source target start stop marginDays) s

/-- **The join does not fan out**: the append list has distinct keys. -/
theorem joined_eq : Keyed.leftJoin (fun s => s.row.key) TradeRow.key
      (srcRanked order source start stop) (missing order' source target start stop marginDays) =
    (srcRanked order source start stop).map fun s =>
      (s, candidate order' source target start stop marginDays s) :=
  Keyed.leftJoin_of_uniq uniq_missing

theorem countP_joined (q : SrcRanked × Option TradeRow → Bool) :
    (Keyed.leftJoin (fun s => s.row.key) TradeRow.key (srcRanked order source start stop)
      (missing order' source target start stop marginDays)).countP q =
    (srcRanked order source start stop).countP fun s =>
      q (s, candidate order' source target start stop marginDays s) := by
  rw [joined_eq, List.countP_map]
  rfl

/-- Every row of the append list has a `trade_id`, so `m.trade_id IS NOT NULL` says that the join
found one. -/
theorem candidate_any {s : SrcRanked} :
    ((candidate order' source target start stop marginDays s).any fun m => m.tradeId.isSome) =
      Keyed.matched TradeRow.key TradeRow.key
        (missing order' source target start stop marginDays) s.row := by
  refine Eq.trans ?_ Keyed.partner_isSome
  show _ = (candidate order' source target start stop marginDays s).isSome
  cases hp : candidate order' source target start stop marginDays s with
  | none => rfl
  | some m =>
    obtain ⟨-, -, -, hi, -⟩ := complete_iff.1 (mem_missing.1 (List.mem_of_find?_eq_some hp)).2.1
    exact hi

/-! ## The counts -/

theorem audit_rowsInWindow : (audit order order' source target start stop marginDays).rowsInWindow =
    (source.filter (inRange start stop)).length := by
  show (Keyed.leftJoin _ _ _ _).length = _
  rw [joined_eq, List.length_map, length_srcRanked]

theorem audit_distinctKeys : (audit order order' source target start stop marginDays).distinctKeys =
    (firstRows order (source.filter (inRange start stop))).length := by
  show (Keyed.leftJoin _ _ _ _).countP _ = _
  rw [countP_joined, ← List.countP_true, ← countP_srcRanked]
  simp only [Bool.and_true]

/-- A row of the window is a first row or a repeat. -/
theorem audit_duplicateRows :
    (audit order order' source target start stop marginDays).rowsInWindow =
      (audit order order' source target start stop marginDays).distinctKeys +
        (audit order order' source target start stop marginDays).duplicateRows := by
  show (Keyed.leftJoin _ _ _ _).length =
    (Keyed.leftJoin _ _ _ _).countP _ + (Keyed.leftJoin _ _ _ _).countP _
  rw [countP_joined, countP_joined, joined_eq, List.length_map,
    List.length_eq_countP_add_countP fun s => s.rn == 1]
  congr 1
  refine List.countP_congr fun s hs => ?_
  have hpos := (complete_of_mem_srcRanked hs).2
  simp only [beq_iff_eq, decide_eq_true_iff]
  omega

theorem audit_rowsSkippedNull :
    (audit order order' source target start stop marginDays).rowsSkippedNull =
      (firstRows order (source.filter (inRange start stop))).countP fun r => !complete r := by
  show (Keyed.leftJoin _ _ _ _).countP _ = _
  rw [countP_joined, ← countP_srcRanked]
  refine List.countP_congr fun s hs => ?_
  rw [(complete_of_mem_srcRanked hs).1]

/-- **`rows_to_append` counts the append list it joins to**, however the joined rows are ranked. -/
theorem audit_rowsToAppend :
    (audit order order' source target start stop marginDays).rowsToAppend =
      (missing order' source target start stop marginDays).length := by
  have hsub : ∀ k ∈ Keyed.keys TradeRow.key (missing order' source target start stop marginDays),
      k ∈ Keyed.keys TradeRow.key (firstRows order (source.filter (inRange start stop))) := by
    intro k hk
    obtain ⟨-, f, hf, -, hkf⟩ := mem_keys_missing.1 hk
    exact mem_keys_firstRows.2 (Keyed.mem_keys_of_mem (mem_of_mem_firstRows hf) hkf)
  show (Keyed.leftJoin _ _ _ _).countP _ = _
  rw [← length_keys_missing, ← Keyed.countP_matched uniq_firstRows uniq_missing hsub,
    countP_joined, ← countP_srcRanked]
  simp only [candidate_any]

/-- How many complete first rows have a key that the target holds in the widened window. -/
def completeHeld (order : RowOrder) (source target : List TradeRow)
    (start stop marginDays : Int64) : Nat :=
  (firstRows order (source.filter (inRange start stop))).countP fun r =>
    complete r && Keyed.matched TradeRow.key keyOf (targetKeys target start stop marginDays) r

/-- A first row is on the append list, incomplete, or of a key that the target holds. -/
theorem length_firstRows_split :
    (firstRows order (source.filter (inRange start stop))).length =
      (missing order source target start stop marginDays).length +
        ((firstRows order (source.filter (inRange start stop))).countP fun r => !complete r) +
        completeHeld order source target start stop marginDays := by
  rw [missing_eq, completeHeld, ← List.countP_eq_length_filter]
  induction firstRows order (source.filter (inRange start stop)) with
  | nil => rfl
  | cons r rows ih =>
    simp only [List.countP_cons, List.length_cons]
    cases complete r <;>
      cases Keyed.matched TradeRow.key keyOf (targetKeys target start stop marginDays) r <;>
      simp <;> omega

/-! ## Ties -/

/-- Of two rows of one rank, the complete one first. -/
def completeFirst (a b : TradeRow) : Bool :=
  toLex (rank a, !complete a) ≤ toLex (rank b, !complete b)

theorem completeFirst_iff {a b : TradeRow} : completeFirst a b = true ↔
    rank a < rank b ∨ rank a = rank b ∧ (!complete a) ≤ (!complete b) := by
  rw [completeFirst, decide_eq_true_iff]
  exact Prod.Lex.toLex_le_toLex

theorem completeFirst_refl (a : TradeRow) : completeFirst a a = true := decide_eq_true (le_refl _)

theorem rowLe_of_completeFirst {a b : TradeRow} (h : completeFirst a b = true) :
    rowLe a b = true := by
  refine decide_eq_true ?_
  rcases completeFirst_iff.1 h with h | ⟨h, -⟩
  · exact h.le
  · exact h.le

/-- The way of sorting that is best for complete rows. -/
def incompleteLast : Window.Ordering completeFirst :=
  .stable completeFirst
    (fun a b => by
      rw [completeFirst, completeFirst, decide_eq_true_iff, decide_eq_true_iff]
      exact le_total _ _)
    fun a b c h h' => decide_eq_true ((of_decide_eq_true h).trans (of_decide_eq_true h'))

def bestOrder : RowOrder where
  apply := incompleteLast.apply
  perm := incompleteLast.perm
  sorted rows := (incompleteLast.sorted rows).imp fun h => rowLe_of_completeFirst h

/-- A first row of the best order is complete if a row of its key and rank is. -/
theorem completeFirst_firstRow {rows : List TradeRow} (hf : f ∈ firstRows bestOrder rows)
    (hr : r ∈ rows) (hk : r.key = some k) (hkf : f.key = some k) : completeFirst f r = true :=
  Window.first_le completeFirst_refl (incompleteLast.sorted _) hf
    ((incompleteLast.perm _).mem_iff.2 hr) (partKey_eq_of_key hk hkf)

/-- No complete and incomplete row of a key of the window tie for its first rank, the keys that the
target holds apart. -/
def TiesAgree (source target : List TradeRow) (start stop marginDays : Int64) : Prop :=
  ∀ k, k ∉ heldKeys target start stop marginDays →
    ∀ r ∈ source.filter (inRange start stop), ∀ r' ∈ source.filter (inRange start stop),
      r.key = some k → r'.key = some k → rank r = rank r' →
        complete r = true → complete r' = false →
          ∃ f ∈ source.filter (inRange start stop), f.key = some k ∧ rank f < rank r

theorem rank_firstRow_le (hf : f ∈ firstRows order (source.filter (inRange start stop)))
    (hr : r ∈ source.filter (inRange start stop)) (hk : r.key = some k) (hkf : f.key = some k) :
    rank f ≤ rank r :=
  of_decide_eq_true (firstRow_le hf hr (partKey_eq_of_key hk hkf))

theorem exists_firstRow (order : RowOrder) (hr : r ∈ source.filter (inRange start stop))
    (hk : r.key = some k) :
    ∃ f ∈ firstRows order (source.filter (inRange start stop)), f.key = some k :=
  Keyed.mem_keys.1 (mem_keys_firstRows.2 (Keyed.mem_keys_of_mem hr hk))

/-- Listed under one order, listed under all. -/
theorem TiesAgree.mem_keys_missing (h : TiesAgree source target start stop marginDays)
    (hk : k ∈ Keyed.keys TradeRow.key (missing order source target start stop marginDays)) :
    k ∈ Keyed.keys TradeRow.key (missing order' source target start stop marginDays) := by
  obtain ⟨hn, r, hr, hc, hkr⟩ := Backfill.mem_keys_missing.1 hk
  have hrw := mem_of_mem_firstRows hr
  obtain ⟨f, hf, hkf⟩ := exists_firstRow order' hrw hkr
  have hfw := mem_of_mem_firstRows hf
  refine Backfill.mem_keys_missing.2 ⟨hn, f, hf, ?_, hkf⟩
  by_contra hinc
  -- Both are first under an order, so their ranks are one, and least.
  have hrank : rank r = rank f :=
    le_antisymm (rank_firstRow_le hr hfw hkf hkr) (rank_firstRow_le hf hrw hkr hkf)
  obtain ⟨g, hg, hkg, hlt⟩ := h k hn r hrw f hfw hkr hkf hrank hc (by simpa using hinc)
  exact absurd (rank_firstRow_le hr hg hkg hkr) (not_le.2 hlt)

/-- Listed under the worst order, listed under all. -/
theorem mem_keys_missing_of_worst
    (hk : k ∈ Keyed.keys TradeRow.key (missing worstOrder source target start stop marginDays)) :
    k ∈ Keyed.keys TradeRow.key (missing order source target start stop marginDays) := by
  obtain ⟨hn, r, hr, hc, hkr⟩ := mem_keys_missing.1 hk
  have hrw := mem_of_mem_firstRows hr
  obtain ⟨f, hf, hkf⟩ := exists_firstRow order hrw hkr
  refine mem_keys_missing.2 ⟨hn, f, hf, ?_, hkf⟩
  by_contra hinc
  rcases completeLast_iff.1
    (completeLast_firstRow hr (mem_of_mem_firstRows hf) hkf hkr) with hlt | ⟨-, hb⟩
  · exact absurd (rank_firstRow_le hf hrw hkr hkf) (not_le.2 hlt)
  · rw [hc, Bool.eq_false_iff.2 hinc] at hb
    exact absurd hb (by decide)

/-- The best order lists a key of which a complete row has the least rank. -/
theorem listed_under_best (hn : k ∉ heldKeys target start stop marginDays)
    (hr : r ∈ source.filter (inRange start stop)) (hk : r.key = some k) (hc : complete r = true)
    (hleast : ∀ f ∈ source.filter (inRange start stop), f.key = some k → ¬rank f < rank r) :
    k ∈ Keyed.keys TradeRow.key (missing bestOrder source target start stop marginDays) := by
  obtain ⟨f, hf, hkf⟩ := exists_firstRow bestOrder hr hk
  refine mem_keys_missing.2 ⟨hn, f, hf, ?_, hkf⟩
  by_contra hinc
  rcases completeFirst_iff.1 (completeFirst_firstRow hf hr hk hkf) with hlt | ⟨-, hb⟩
  · exact hleast f (mem_of_mem_firstRows hf) hkf hlt
  · rw [hc, Bool.eq_false_iff.2 hinc] at hb
    exact absurd hb (by decide)

/-- The worst order lists no key of which an incomplete row has the least rank. -/
theorem not_listed_under_worst (hr : r ∈ source.filter (inRange start stop)) (hk : r.key = some k)
    (hc : complete r = false)
    (hleast : ∀ f ∈ source.filter (inRange start stop), f.key = some k → ¬rank f < rank r) :
    k ∉ Keyed.keys TradeRow.key (missing worstOrder source target start stop marginDays) := by
  intro hx
  obtain ⟨-, f, hf, hcf, hkf⟩ := mem_keys_missing.1 hx
  rcases completeLast_iff.1 (completeLast_firstRow hf hr hk hkf) with hlt | ⟨-, hb⟩
  · exact hleast f (mem_of_mem_firstRows hf) hkf hlt
  · rw [hcf, hc] at hb
    exact absurd hb (by decide)

/-- **Every order lists as many rows exactly if no tie decides.** -/
theorem tiesAgree_iff : TiesAgree source target start stop marginDays ↔
    ∀ order order', (missing order source target start stop marginDays).length =
      (missing order' source target start stop marginDays).length := by
  refine ⟨fun h order order' => ?_, fun h k hn r hr r' hr' hkr hkr' hrank hc hc' => ?_⟩
  · rw [← length_keys_missing, ← length_keys_missing]
    exact Keyed.length_keys_eq uniq_missing uniq_missing fun k =>
      ⟨h.mem_keys_missing, h.mem_keys_missing⟩
  · by_contra hno
    have hleast : ∀ f ∈ source.filter (inRange start stop), f.key = some k → ¬rank f < rank r :=
      fun f hf hkf hlt => hno ⟨f, hf, hkf, hlt⟩
    -- The two extreme orders disagree on the key, and only on such keys.
    have hbest := listed_under_best hn hr hkr hc hleast
    have hworst := @not_listed_under_worst source target start stop marginDays r' k hr' hkr' hc'
      (hrank ▸ hleast)
    have hlt := Keyed.length_keys_lt uniq_missing (fun _ => mem_keys_missing_of_worst) hbest hworst
    rw [length_keys_missing, length_keys_missing, h worstOrder bestOrder] at hlt
    exact lt_irrefl _ hlt

end

/-- The counts say what an append does whose ranking is resolved by `order''`; `order` is how the
audit ranks the rows that it joins. -/
structure Audit.Predicts (a : Audit) (order order'' : RowOrder) (source target : List TradeRow)
    (start stop marginDays : Int64) : Prop where
  rowsToAppend : a.rowsToAppend = (candidates order'' source target start stop marginDays).length
  duplicateRows : a.rowsInWindow = a.distinctKeys + a.duplicateRows
  rowsInWindow : a.rowsInWindow = (source.filter (inRange start stop)).length
  distinctKeys : a.distinctKeys = a.rowsToAppend + a.rowsSkippedNull +
    completeHeld order source target start stop marginDays

/-- **The audit predicts the append**, however each evaluation resolves ties, exactly if no complete
and incomplete row tie for the first rank of a key that the target does not hold. -/
theorem audit_predicts_iff (source target : List TradeRow) (start stop marginDays : Int64) :
    (∀ order order' order'', (audit order order' source target start stop marginDays).Predicts
      order order'' source target start stop marginDays) ↔
    TiesAgree source target start stop marginDays := by
  rw [tiesAgree_iff]
  refine ⟨fun h order order' => ?_, fun h order order' order'' => ?_⟩
  · have ha := (h order order order').rowsToAppend
    rw [audit_rowsToAppend, candidates, List.length_map] at ha
    exact ha
  · refine ⟨?_, audit_duplicateRows, audit_rowsInWindow, ?_⟩
    · rw [audit_rowsToAppend, candidates, List.length_map]
      exact h order' order''
    · rw [audit_distinctKeys, audit_rowsToAppend, audit_rowsSkippedNull, h order' order]
      exact length_firstRows_split

/-- A trade and a copy of it without a price, at one time. -/
def tiedTrade : List TradeRow :=
  [TradeRow.ofEvent (btcTrade 1 1000), { TradeRow.ofEvent (btcTrade 1 1000) with price := none }]

/-- The audit counts one row to append, and the append finds the incomplete copy first and writes
none. -/
theorem audit_misses_tie :
    ¬∀ order order' order'', (audit order order' tiedTrade [] 0 86400000000 1).Predicts
      order order'' tiedTrade [] 0 86400000000 1 := by
  intro h
  have ha : (audit stableOrder stableOrder tiedTrade [] 0 86400000000 1).rowsToAppend = 1 ∧
      (candidates worstOrder tiedTrade [] 0 86400000000 1).length = 0 := by
    decide +kernel
  have hp := (h stableOrder stableOrder worstOrder).rowsToAppend
  rw [ha.1, ha.2] at hp
  exact absurd hp (by decide)

end Query.Backfill
