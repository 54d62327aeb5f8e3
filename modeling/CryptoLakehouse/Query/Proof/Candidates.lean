import Mathlib.Data.List.Dedup
import CryptoLakehouse.Query.Backfill
import CryptoLakehouse.Query.Proof.Ranked

/-!
# The append list

* `mem_candidates` — what is appended: the complete first rows whose keys the target does not hold
  in the widened window.
* `always_listed_iff` — which keys are on the list however ties are resolved.
-/

namespace Query.Backfill

open Arrow Trades Sink

section
variable {order : RowOrder} {source target : List TradeRow} {start stop marginDays : Int64}
  {r c f : TradeRow} {k : Key}

/-! ## Complete rows -/

theorem complete_iff : complete r = true ↔
    r.eventTime.isSome ∧ r.symbol.isSome ∧ r.exchange.isSome ∧ r.tradeId.isSome ∧ r.price.isSome ∧
      r.quantity.isSome ∧ r.tradeTime.isSome ∧ r.tradeTs.isSome ∧ r.eventTs.isSome := by
  have hcell : ∀ n, schema.cell r.toRow n = ((schema.names.zip r.toRow).lookup n).join :=
    fun _ => rfl
  simp only [complete, mustNotBeNull, List.all_cons, List.all_nil, hcell]
  simp [Schema.names, schema, Trades.arrowSchema, tableSchema, TradeRow.toRow, List.lookup_cons]

theorem full_candidateProjection : (candidateProjection r).full = true := by
  simp [full_iff, candidateProjection]

theorem key_candidateProjection (h : complete r = true) : (candidateProjection r).key = r.key := by
  obtain ⟨-, hs, he, hi, -⟩ := complete_iff.1 h
  obtain ⟨s, hs⟩ := Option.isSome_iff_exists.1 hs
  obtain ⟨e, he⟩ := Option.isSome_iff_exists.1 he
  obtain ⟨i, hi⟩ := Option.isSome_iff_exists.1 hi
  simp only [TradeRow.key, candidateProjection, hs, he, hi, Option.getD_some]

theorem tradeTs_candidateProjection (h : complete r = true) :
    (candidateProjection r).tradeTs = r.tradeTs := by
  obtain ⟨-, -, -, -, -, -, -, ht, -⟩ := complete_iff.1 h
  obtain ⟨t, ht⟩ := Option.isSome_iff_exists.1 ht
  simp only [candidateProjection, ht, Option.getD_some]

/-! ## Keys of the target -/

/-- The keys of the target in the widened window. -/
def heldKeys (target : List TradeRow) (start stop marginDays : Int64) : List Key :=
  Keyed.keys TradeRow.key (target.filter (inMargin start stop marginDays))

theorem mem_targetKeys :
    k ∈ Keyed.keys keyOf (targetKeys target start stop marginDays) ↔
      k ∈ heldKeys target start stop marginDays := by
  rw [heldKeys, keys_eq_filterMap, Keyed.keys, targetKeys]
  simp only [List.mem_filterMap, List.mem_dedup]

theorem mem_heldKeys : k ∈ heldKeys target start stop marginDays ↔
    ∃ t ∈ target, inMargin start stop marginDays t = true ∧ t.key = some k := by
  rw [heldKeys, Keyed.mem_keys]
  simp only [List.mem_filter, and_assoc]

/-! ## The list -/

theorem missing_eq : missing order source target start stop marginDays =
    (firstRows order (source.filter (inRange start stop))).filter fun r =>
      complete r && !Keyed.matched TradeRow.key keyOf (targetKeys target start stop marginDays) r := by
  rw [missing, Keyed.antiJoin, srcRanked, List.filter_map, List.filter_map, List.map_map,
    List.filter_filter, firstRows, Window.firsts, Window.firstsFrom, List.filter_map,
    List.filter_filter]
  refine congrArg (List.map _) (List.filter_congr fun p _ => ?_)
  simp only [Function.comp_apply]
  rw [Bool.and_comm (p.2 == 1), Bool.and_assoc, Bool.and_left_comm, Bool.and_comm (p.2 == 1)]
  rfl

theorem mem_missing : r ∈ missing order source target start stop marginDays ↔
    r ∈ firstRows order (source.filter (inRange start stop)) ∧ complete r = true ∧
      ∀ k, r.key = some k → k ∉ heldKeys target start stop marginDays := by
  rw [missing_eq, List.mem_filter, Bool.and_eq_true, Bool.not_eq_true', ← Bool.not_eq_true,
    Keyed.matched_iff]
  simp only [mem_targetKeys, not_exists, not_and]

/-- **The append list.** -/
theorem mem_candidates : c ∈ candidates order source target start stop marginDays ↔
    ∃ r ∈ firstRows order (source.filter (inRange start stop)), complete r = true ∧
      (∀ k, r.key = some k → k ∉ heldKeys target start stop marginDays) ∧
      candidateProjection r = c := by
  rw [candidates, List.mem_map]
  simp only [mem_missing, and_assoc]

/-- The projection changes no key of the list. -/
theorem keys_candidates : Keyed.keys TradeRow.key (candidates order source target start stop
    marginDays) = Keyed.keys TradeRow.key (missing order source target start stop marginDays) := by
  rw [Keyed.keys, candidates, List.filterMap_map]
  exact List.filterMap_congr fun r hr => key_candidateProjection (mem_missing.1 hr).2.1

theorem uniq_candidates :
    Keyed.Uniq TradeRow.key (candidates order source target start stop marginDays) := by
  rw [Keyed.Uniq, keys_candidates, missing_eq]
  exact uniq_firstRows.sublist List.filter_sublist

theorem mem_keys_candidates :
    k ∈ Keyed.keys TradeRow.key (candidates order source target start stop marginDays) ↔
      k ∉ heldKeys target start stop marginDays ∧
      ∃ r ∈ firstRows order (source.filter (inRange start stop)),
        complete r = true ∧ r.key = some k := by
  rw [keys_candidates, Keyed.mem_keys]
  refine ⟨fun h => ?_, fun h => ?_⟩
  · obtain ⟨r, hr, hk⟩ := h
    obtain ⟨hf, hc, hn⟩ := mem_missing.1 hr
    exact ⟨hn k hk, r, hf, hc, hk⟩
  · obtain ⟨hn, r, hf, hc, hk⟩ := h
    refine ⟨r, mem_missing.2 ⟨hf, hc, fun k' hk' => ?_⟩, hk⟩
    rw [hk] at hk'
    cases hk'
    exact hn

theorem candidateSql_sublist {widens : Int64 → Int64 → Int64 → Bool} :
    (candidateSql widens order source target start stop marginDays).Sublist
      (candidates order source target start stop marginDays) := by
  rw [candidateSql]
  split
  · exact List.Sublist.refl _
  · exact List.nil_sublist _

theorem mem_keys_candidateSql {widens : Int64 → Int64 → Int64 → Bool} :
    k ∈ Keyed.keys TradeRow.key
      (candidateSql widens order source target start stop marginDays) ↔
      widens start stop marginDays = true ∧
        k ∈ Keyed.keys TradeRow.key (candidates order source target start stop marginDays) := by
  rw [candidateSql]
  split
  · rename_i hwid
    exact (and_iff_right hwid).symm
  · rename_i hwid
    exact iff_of_false List.not_mem_nil fun h => hwid h.1

/-! ## Ties -/

/-- Of two rows of one rank, the incomplete one first. -/
def completeLast (a b : TradeRow) : Bool := toLex (rank a, complete a) ≤ toLex (rank b, complete b)

theorem completeLast_iff {a b : TradeRow} : completeLast a b = true ↔
    rank a < rank b ∨ rank a = rank b ∧ complete a ≤ complete b := by
  rw [completeLast, decide_eq_true_iff]
  exact Prod.Lex.toLex_le_toLex

theorem completeLast_refl (a : TradeRow) : completeLast a a = true := decide_eq_true (le_refl _)

theorem rowLe_of_completeLast {a b : TradeRow} (h : completeLast a b = true) :
    rowLe a b = true := by
  refine decide_eq_true ?_
  rcases completeLast_iff.1 h with h | ⟨h, -⟩
  · exact h.le
  · exact h.le

/-- The way of sorting that is worst for complete rows. -/
def incompleteFirst : Window.Ordering completeLast :=
  .stable completeLast
    (fun a b => by
      rw [completeLast, completeLast, decide_eq_true_iff, decide_eq_true_iff]
      exact le_total _ _)
    fun a b c h h' => decide_eq_true ((of_decide_eq_true h).trans (of_decide_eq_true h'))

def worstOrder : RowOrder where
  apply := incompleteFirst.apply
  perm := incompleteFirst.perm
  sorted rows := (incompleteFirst.sorted rows).imp fun h => rowLe_of_completeLast h

/-- A first row of the worst order is incomplete if a row of its key and rank is. -/
theorem completeLast_firstRow {rows : List TradeRow} (hf : f ∈ firstRows worstOrder rows)
    (hr : r ∈ rows) (hk : r.key = some k) (hkf : f.key = some k) : completeLast f r = true :=
  Window.first_le completeLast_refl (incompleteFirst.sorted _) hf
    ((incompleteFirst.perm _).mem_iff.2 hr) (partKey_eq_of_key hk hkf)

end

/-- **Which keys are always on the list**, provided that the engine can widen the window at all:
those that the target does not hold in the widened window and of which a complete row of the window
sorts strictly before every incomplete one. -/
theorem always_listed_iff (widens : Int64 → Int64 → Int64 → Bool) (source target : List TradeRow)
    (start stop marginDays : Int64) (k : Key) :
    (∀ order, k ∈ Keyed.keys TradeRow.key
      (candidateSql widens order source target start stop marginDays)) ↔
    widens start stop marginDays = true ∧
      (∀ t ∈ target, inMargin start stop marginDays t = true → t.key ≠ some k) ∧
      ∃ r ∈ source, inRange start stop r = true ∧ r.key = some k ∧ complete r = true ∧
        ∀ r' ∈ source, inRange start stop r' = true → r'.key = some k → complete r' = false →
          rowLe r' r = false := by
  have hheld : k ∉ heldKeys target start stop marginDays ↔
      ∀ t ∈ target, inMargin start stop marginDays t = true → t.key ≠ some k := by
    simp only [mem_heldKeys, not_exists, not_and, ne_eq]
  refine ⟨fun hall => ?_, fun h order => ?_⟩
  · obtain ⟨hwid, hlist⟩ := mem_keys_candidateSql.1 (hall worstOrder)
    obtain ⟨hn, r, hf, hc, hk⟩ := mem_keys_candidates.1 hlist
    obtain ⟨hr, hw⟩ := List.mem_filter.1 (mem_of_mem_firstRows hf)
    refine ⟨hwid, hheld.1 hn, r, hr, hw, hk, hc, fun r' hr' hw' hk' hc' => ?_⟩
    have hle := completeLast_firstRow hf (List.mem_filter.2 ⟨hr', hw'⟩) hk' hk
    -- An incomplete row of its rank would have come first.
    rw [rowLe, decide_eq_false_iff_not, not_le]
    rcases completeLast_iff.1 hle with hlt | ⟨-, hb⟩
    · exact hlt
    · rw [hc, hc'] at hb
      exact absurd hb (by decide)
  · obtain ⟨hwid, hn, r, hr, hw, hk, hc, hfirst⟩ := h
    have hmem : r ∈ source.filter (inRange start stop) := List.mem_filter.2 ⟨hr, hw⟩
    obtain ⟨f, hf, hkf⟩ := Keyed.mem_keys.1
      (mem_keys_firstRows.2 (Keyed.mem_keys_of_mem hmem hk) :
        k ∈ Keyed.keys TradeRow.key (firstRows order (source.filter (inRange start stop))))
    refine mem_keys_candidateSql.2 ⟨hwid, mem_keys_candidates.2 ⟨hheld.2 hn, f, hf, ?_, hkf⟩⟩
    have hle := firstRow_le hf hmem (partKey_eq_of_key hk hkf)
    obtain ⟨hfs, hfw⟩ := List.mem_filter.1 (mem_of_mem_firstRows hf)
    by_contra hinc
    rw [hfirst f hfs hfw hkf (by simpa using hinc)] at hle
    exact Bool.false_ne_true hle

/-- A trade whose first copy lacks a price, and its second, complete copy. -/
def halfTrade : List TradeRow :=
  [{ TradeRow.ofEvent (btcTrade 1 1000) with price := none },
    { TradeRow.ofEvent (btcTrade 1 1000) with eventTs := some 2000000 }]

/-- The second copy is complete, the target is empty and the day can be widened by another at both
ends, and the key is not listed. -/
theorem first_copy_hides_second :
    widensNanos 0 86400000000 1 = true ∧
    (∃ r ∈ halfTrade, inRange 0 86400000000 r = true ∧ r.key = some (btcTrade 1 1000).key ∧
      complete r = true) ∧
    (btcTrade 1 1000).key ∉ Keyed.keys TradeRow.key
      (candidateSql widensNanos stableOrder halfTrade [] 0 86400000000 1) := by
  decide +kernel

end Query.Backfill
