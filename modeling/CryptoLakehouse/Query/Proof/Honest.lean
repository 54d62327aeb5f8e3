import CryptoLakehouse.Query.Proof.Audit
import CryptoLakehouse.Query.Proof.Backfill

/-!
# Honest, absent rows

What crypto-backfill appends is copied from the source (`candidateProjection_eq`) and has distinct
keys (`nodup_candidates`), whatever the margin. That the target does not hold it rests on the
margin's sign: the range that the anti-join looks at is the window *widened* by the margin, and a
negative one narrows it, so a row of the target near an end of the window is not seen.

* `honest_iff` — the tables on which no resolution of ties appends a key that the target holds in
  the window.
* `honest_of_nonneg` — with a margin of 0 or more, all of them.
-/

namespace Query.Backfill

open Trades Sink

/-- The row as the target spells it: a NULL flag is `false`. -/
def normalized (r : TradeRow) : TradeRow :=
  { r with
    isBuyerMaker := some (r.isBuyerMaker.getD false)
    isBestPriceMatch := some (r.isBestPriceMatch.getD false) }

/-- `rows` are complete rows of the window, of distinct keys that the target does not hold in the
window. -/
structure Honest (source target : List TradeRow) (start stop : Int64) (rows : List TradeRow) :
    Prop where
  copied : ∀ c ∈ rows, ∃ r ∈ source, inRange start stop r = true ∧ complete r = true ∧
    c = normalized r
  distinct : (rows.map partKey).Nodup
  absent : ∀ c ∈ rows, ∀ t ∈ target, inRange start stop t = true → partKey t ≠ partKey c

/-- The target holds the key in the window, and not in the range that the anti-join looks at. -/
def Unseen (target : List TradeRow) (start stop marginDays : Int64) (k : Key) : Prop :=
  (∃ t ∈ target, inRange start stop t = true ∧ t.key = some k) ∧
    ∀ t ∈ target, inMargin start stop marginDays t = true → t.key ≠ some k

section
variable {order : RowOrder} {source target : List TradeRow} {start stop marginDays : Int64}
  {r c t : TradeRow}

/-! ## The projection -/

theorem coalesceFlag_eq (flag : Option Bool) : coalesceFlag flag = flag.getD false := by
  rcases flag with _ | _ | _ <;> rfl

/-- **No default replaces a value** of a complete row. -/
theorem candidateProjection_eq (h : complete r = true) : candidateProjection r = normalized r := by
  obtain ⟨h1, h2, h3, h4, h5, h6, h7, h8, h9⟩ := complete_iff.1 h
  have hget : ∀ {α : Type} {o : Option α} (d : α), o.isSome = true → some (o.getD d) = o := by
    intro α o d ho
    obtain ⟨a, rfl⟩ := Option.isSome_iff_exists.1 ho
    rfl
  simp only [candidateProjection, normalized, coalesceFlag_eq, hget _ h1, hget _ h2, hget _ h3,
    hget _ h4, hget _ h5, hget _ h6, hget _ h7, hget _ h8, hget _ h9]

theorem partKey_normalized : partKey (normalized r) = partKey r := rfl

theorem mem_candidates_iff : c ∈ candidates order source target start stop marginDays ↔
    ∃ r ∈ missing order source target start stop marginDays, c = normalized r := by
  rw [candidates, List.mem_map]
  refine exists_congr fun r => and_congr_right fun hr => ?_
  rw [candidateProjection_eq (mem_missing.1 hr).2.1]
  exact eq_comm

/-- **No two rows of one key.** -/
theorem nodup_candidates :
    ((candidates order source target start stop marginDays).map partKey).Nodup := by
  have hmap : (candidates order source target start stop marginDays).map partKey =
      (missing order source target start stop marginDays).map partKey := by
    rw [candidates, List.map_map]
    refine List.map_congr_left fun r hr => ?_
    show partKey (candidateProjection r) = _
    rw [candidateProjection_eq (mem_missing.1 hr).2.1, partKey_normalized]
  rw [hmap, missing_eq]
  exact Window.nodup_firsts.sublist (List.filter_sublist.map partKey)

/-! ## The target -/

/-- A candidate's key, unlike a NULL one, equals a key of the target. -/
theorem key_of_partKey_eq (h : complete r = true) (hp : partKey t = partKey r) :
    ∃ k, r.key = some k ∧ t.key = some k := by
  obtain ⟨k, hk⟩ := exists_key_of_complete h
  exact ⟨k, hk, by rw [key_eq_keyOf, hp, ← key_eq_keyOf, hk]⟩

/-- Without unseen keys of complete first rows, what a query yields is honest. -/
theorem honest_candidates
    (h : ∀ r ∈ missing order source target start stop marginDays, ∀ k, r.key = some k →
      ∀ t ∈ target, inRange start stop t = true → t.key ≠ some k) :
    Honest source target start stop (candidates order source target start stop marginDays) where
  copied c hc := by
    obtain ⟨r, hr, rfl⟩ := mem_candidates_iff.1 hc
    obtain ⟨hf, hcomp, -⟩ := mem_missing.1 hr
    obtain ⟨hs, hw⟩ := List.mem_filter.1 (mem_of_mem_firstRows hf)
    exact ⟨r, hs, hw, hcomp, rfl⟩
  distinct := nodup_candidates
  absent c hc t ht hw hp := by
    obtain ⟨r, hr, rfl⟩ := mem_candidates_iff.1 hc
    obtain ⟨k, hk, hkt⟩ := key_of_partKey_eq (mem_missing.1 hr).2.1 hp
    exact h r hr k hk t ht hw hkt

theorem honest_nil : Honest source target start stop [] :=
  ⟨fun _ h => absurd h List.not_mem_nil, List.nodup_nil, fun _ h => absurd h List.not_mem_nil⟩

end

/-- **When the appended rows are honest**: exactly if every complete row of the window whose key is
unseen comes strictly after another row of its key, so that it is never the first of its key. -/
theorem honest_iff (widens : Int64 → Int64 → Int64 → Bool) (source target : List TradeRow)
    (start stop marginDays : Int64) :
    (∀ order, Honest source target start stop
      (candidateSql widens order source target start stop marginDays)) ↔
    (widens start stop marginDays = true → ∀ k, Unseen target start stop marginDays k →
      ∀ r ∈ source, inRange start stop r = true → r.key = some k → complete r = true →
        ∃ f ∈ source, inRange start stop f = true ∧ f.key = some k ∧ rank f < rank r) := by
  refine ⟨fun h hwid k hun r hr hw hk hc => ?_, fun h order => ?_⟩
  · by_contra hno
    obtain ⟨⟨t, ht, hwt, hkt⟩, hn⟩ := hun
    have hmem : r ∈ source.filter (inRange start stop) := List.mem_filter.2 ⟨hr, hw⟩
    have hheld : k ∉ heldKeys target start stop marginDays := by
      rw [mem_heldKeys]
      intro hx
      obtain ⟨t', ht', hm', hk'⟩ := hx
      exact hn t' ht' hm' hk'
    -- The order that prefers complete rows lists the key.
    have hlist := listed_under_best hheld hmem hk hc fun f hf hkf hlt =>
      hno ⟨f, (List.mem_filter.1 hf).1, (List.mem_filter.1 hf).2, hkf, hlt⟩
    obtain ⟨f, hf, hkf⟩ := Keyed.mem_keys.1 hlist
    have habs := h bestOrder
    rw [candidateSql, if_pos hwid] at habs
    exact habs.absent _ (mem_candidates_iff.2 ⟨f, hf, rfl⟩) t ht hwt (partKey_eq_of_key hkt hkf)
  · rw [candidateSql]
    split
    · rename_i hwid
      refine honest_candidates fun r hr k hk t ht hw hkt => ?_
      obtain ⟨hf, hc, hn⟩ := mem_missing.1 hr
      obtain ⟨hs, hws⟩ := List.mem_filter.1 (mem_of_mem_firstRows hf)
      have hun : Unseen target start stop marginDays k :=
        ⟨⟨t, ht, hw, hkt⟩, fun t' ht' hm' hk' => hn k hk (mem_heldKeys.2 ⟨t', ht', hm', hk'⟩)⟩
      obtain ⟨f, hfs, hfw, hkf, hlt⟩ := h hwid k hun r hs hws hk hc
      exact absurd (rank_firstRow_le hf (List.mem_filter.2 ⟨hfs, hfw⟩) hkf hk) (not_le.2 hlt)
    · exact honest_nil

/-- With a margin of 0 or more, what a query yields is honest whatever the tables hold. -/
theorem honest_of_nonneg (widens : Int64 → Int64 → Int64 → Bool) (order : RowOrder)
    (source target : List TradeRow) (start stop marginDays : Int64) (hm : 0 ≤ marginDays) :
    Honest source target start stop
      (candidateSql widens order source target start stop marginDays) := by
  rw [candidateSql]
  split
  · refine honest_candidates fun r hr k hk t ht hw hkt => ?_
    obtain ⟨-, -, hn⟩ := mem_missing.1 hr
    exact hn k hk (mem_heldKeys.2 ⟨t, ht, inMargin_of_inRange hm hw, hkt⟩)
  · exact honest_nil

/-- `--target-margin-days=-1` over a day: the target holds the trade, and it is appended again. -/
theorem narrowed_margin_appends_again :
    ¬∀ (source target : List TradeRow) (start stop marginDays : Int64) (order : RowOrder),
      Honest source target start stop
        (candidateSql widensNanos order source target start stop marginDays) := by
  intro h
  have habs := (h [.ofEvent (btcTrade 1 1000)] [.ofEvent (btcTrade 1 1000)] 0 86400000000 (-1)
    stableOrder).absent
  have hmem : TradeRow.ofEvent (btcTrade 1 1000) ∈ candidateSql widensNanos stableOrder
      [.ofEvent (btcTrade 1 1000)] [.ofEvent (btcTrade 1 1000)] 0 86400000000 (-1) := by
    decide +kernel
  exact habs _ hmem _ (List.mem_singleton_self _) (by decide +kernel) rfl

end Query.Backfill
