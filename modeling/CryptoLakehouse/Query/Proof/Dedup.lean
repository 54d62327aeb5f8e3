import CryptoLakehouse.Query.Dedup
import CryptoLakehouse.Query.Proof.Ranked

/-!
# Re-running crypto-dedup

The rewrite does not look at its target, so a run appends every key of the window whatever earlier
runs have left there. `rerun_converges_iff`: after a run that completes, the target holds each key
of the window once exactly when it was empty before that run.
-/

namespace Query.Dedup

open Trades Sink

section
variable {into : String} {source : List TradeRow} {start stop : Int64} {chunkRows : Nat}
  {order : RowOrder} {ops : RunOps} {target : Lake} {k : Key}

theorem rewrite_eq : rewrite order source start stop =
    firstRows order (source.filter (inRange start stop)) := rfl

theorem insertInto_spec (into : String) (source : List TradeRow) (start stop : Int64)
    (chunkRows : Nat) (ops : RunOps) (h : target.table.schema = schema) :
    Ran (rewrite ops.order source start stop) target
      (insertInto into source start stop chunkRows ops target) :=
  appendQuery_spec h ops into (fun _ => rewrite ops.order source start stop) start stop chunkRows

/-- What the runs leave in the target: rows with keys of the window. -/
structure Held (window : List TradeRow) (target : Lake) : Prop where
  schema : target.table.schema = schema
  keyed : ∀ a ∈ target.rows, ∃ k, a.key = some k ∧ k ∈ Keyed.keys TradeRow.key window

theorem Held.insertInto (ops : RunOps) (h : Held (source.filter (inRange start stop)) target) :
    Held (source.filter (inRange start stop))
      (insertInto into source start stop chunkRows ops target).1 := by
  have hr := insertInto_spec into source start stop chunkRows ops h.schema
  obtain ⟨added, hsub, hfull, hg⟩ := hr.grown
  refine ⟨hr.schema.trans h.schema, fun a ha => ?_⟩
  rcases List.mem_append.1 (hg.rows.mem_iff.1 ha) with ha | ha
  · exact h.keyed a ha
  · obtain ⟨k, hk⟩ := exists_key (hfull a ha)
    have hw := mem_of_mem_firstRows (hsub.subset ha)
    exact ⟨k, hk, Keyed.mem_keys_of_mem hw hk⟩

theorem held_afterRuns (into : String) (chunkRows : Nat) (runs : List RunOps)
    (h : Held (source.filter (inRange start stop)) target) :
    Held (source.filter (inRange start stop))
      (afterRuns (insertInto into source start stop chunkRows) target runs) := by
  induction runs generalizing target with
  | nil => exact h
  | cons ops runs ih => exact ih (h.insertInto ops)

/-- The keys of a rewrite: each of the window's once. -/
theorem count_rewrite :
    (Keyed.keys TradeRow.key (rewrite order source start stop)).count k =
      if k ∈ Keyed.keys TradeRow.key (source.filter (inRange start stop)) then 1 else 0 := by
  rw [rewrite_eq]
  split
  · rename_i h
    exact uniq_firstRows.count_eq_one (mem_keys_firstRows.2 h)
  · rename_i h
    exact List.count_eq_zero.2 fun hk => h (mem_keys_firstRows.1 hk)

/-- After a run that completes: what the target held, and each key of the window once more. -/
theorem count_insertInto {n : Nat} (h : target.table.schema = schema)
    (hok : (insertInto into source start stop chunkRows ops target).2 = .ok n) :
    (Keyed.keys TradeRow.key (insertInto into source start stop chunkRows ops target).1.rows).count
        k = (Keyed.keys TradeRow.key target.rows).count k +
      if k ∈ Keyed.keys TradeRow.key (source.filter (inRange start stop)) then 1 else 0 := by
  have hg := ((insertInto_spec into source start stop chunkRows ops h).ok n hok).2
  rw [(Keyed.keys_perm hg.rows).count_eq, Keyed.keys_append, List.count_append, count_rewrite]

end

/-- **When re-running converges**: after any runs into an empty target and one that completes, the
target holds every key of the window once, and no other, exactly when the completing run found the
target empty. -/
theorem rerun_converges_iff (into : String) (source : List TradeRow) (start stop : Int64)
    (chunkRows : Nat) {target : Lake} (hs : target.table.schema = schema) (he : target.rows = [])
    (runs : List RunOps) (last : RunOps) {n : Nat}
    (hok : (insertInto into source start stop chunkRows last
      (afterRuns (insertInto into source start stop chunkRows) target runs)).2 = .ok n) :
    (∀ k, (Keyed.keys TradeRow.key (afterRuns (insertInto into source start stop chunkRows) target
        (runs ++ [last])).rows).count k =
      if k ∈ Keyed.keys TradeRow.key (source.filter (inRange start stop)) then 1 else 0) ↔
    (afterRuns (insertInto into source start stop chunkRows) target runs).rows = [] := by
  have hheld : Held (source.filter (inRange start stop)) target :=
    ⟨hs, fun a ha => absurd ha (he ▸ List.not_mem_nil)⟩
  rw [afterRuns_concat]
  have hruns := held_afterRuns into chunkRows runs hheld
  refine ⟨fun hall => ?_, fun hnil k => ?_⟩
  · by_contra hne
    obtain ⟨a, ha⟩ := List.exists_mem_of_ne_nil _ hne
    obtain ⟨k, hk, hw⟩ := hruns.keyed a ha
    have hpos := List.count_pos_iff.2 (Keyed.mem_keys_of_mem ha hk)
    have hcount := hall k
    rw [count_insertInto hruns.schema hok, if_pos hw] at hcount
    omega
  · rw [count_insertInto hruns.schema hok, hnil]
    exact Nat.zero_add _

/-- Two trades of day 0. -/
def twoTrades : List TradeRow := [.ofEvent (btcTrade 1 1000), .ofEvent (btcTrade 2 2000)]

/-- After a run that failed before it committed anything. -/
theorem rerun_converges_iff_unwritten :
    (Keyed.keys TradeRow.key (afterRuns
      (insertInto "trades.trades_dedup" twoTrades 0 86400000000 1) .created
      ([.failingAfter 0] ++ [.allOk])).rows).count (btcTrade 1 1000).key =
    if (btcTrade 1 1000).key ∈ Keyed.keys TradeRow.key (twoTrades.filter (inRange 0 86400000000))
    then 1 else 0 :=
  (rerun_converges_iff (n := 2) "trades.trades_dedup" twoTrades 0 86400000000 1 rfl rfl
    [.failingAfter 0] .allOk (by decide +kernel)).2 (by decide +kernel) _

/-- A run commits trade 1 and fails; the next one completes and writes trade 1 again. -/
theorem rerun_duplicates :
    (insertInto "trades.trades_dedup" twoTrades 0 86400000000 1 .allOk
      (afterRuns (insertInto "trades.trades_dedup" twoTrades 0 86400000000 1) .created
        [.failingAfter 1])).2 = .ok 3 ∧
    (Keyed.keys TradeRow.key (afterRuns
      (insertInto "trades.trades_dedup" twoTrades 0 86400000000 1) .created
      ([.failingAfter 1] ++ [.allOk])).rows).count (btcTrade 1 1000).key = 2 := by
  decide +kernel

end Query.Dedup
