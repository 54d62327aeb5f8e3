import CryptoLakehouse.Query.Proof.StreamInto

/-!
# The read-back check

`ensureVisible` compares one count with the number of rows written, so rows that were there before,
or that another writer adds, make up for written rows that the read cannot find
(`catches_misfiled_iff`). Where every row is filed under its own partition, a range read finds every
row of the range (`readRange_of_filed`).
-/

namespace Query

open Arrow Trades Sink Fallible

/-- The rows of the files that a range read skips. -/
def misfiled (start stop : Int64) (files : List DataFile) : List TradeRow :=
  (files.filter fun f => !mayHold start stop f.partition).flatMap (·.rows)

/-- Every row of the file belongs to the file's partition. -/
def Filed (f : DataFile) : Prop := ∀ r ∈ f.rows, f.partition = partitionOf r

section
variable {start stop : Int64} {files files' : List DataFile} {r : TradeRow} {table : Table}
  {plan collect : Reply} {written : Nat}

/-- The day of a timestamp in the range is a day of the range. -/
theorem mayHold_partitionOf (h : inRange start stop r = true) :
    mayHold start stop (partitionOf r) = true := by
  obtain ⟨t, ht, hb⟩ := (Option.any_eq_true _ _).1 h
  simp only [Bool.and_eq_true, decide_eq_true_eq, Int64.le_iff_toInt_le, Int64.lt_iff_toInt_lt] at hb
  have hday : 0 < microsPerDay.toInt := by decide
  have hle : start.toInt / microsPerDay.toInt ≤ t.toInt / microsPerDay.toInt :=
    Int.ediv_le_ediv hday hb.1
  have hmul : t.toInt / microsPerDay.toInt * microsPerDay.toInt ≤ t.toInt :=
    Int.ediv_mul_le _ (Int.ne_of_gt hday)
  refine (Option.any_eq_true _ _).2 ⟨t.divEuclid microsPerDay, by rw [partitionOf, ht]; rfl, ?_⟩
  simp only [Bool.and_eq_true, decide_eq_true_eq, Int64.le_iff_toInt_le,
    Int64.toInt_divEuclid hday]
  exact ⟨hle, by omega⟩

/-- **A range read of a table without misfiled rows** finds the rows of the range. -/
theorem readRange_of_filed (h : ∀ f ∈ files, Filed f) :
    readRange start stop files = (files.flatMap (·.rows)).filter (inRange start stop) := by
  induction files with
  | nil => rfl
  | cons f files ih =>
    obtain ⟨hf, h⟩ := List.forall_mem_cons.1 h
    rw [List.flatMap_cons, List.filter_append, ← ih h]
    by_cases hm : mayHold start stop f.partition = true
    · rw [readRange, List.filter_cons, if_pos hm, List.flatMap_cons, List.filter_append]
      rfl
    · have hnil : f.rows.filter (inRange start stop) = [] := by
        refine List.filter_eq_nil_iff.2 fun r hr hin => hm ?_
        rw [hf r hr]
        exact mayHold_partitionOf hin
      rw [readRange, List.filter_cons, if_neg hm, hnil]
      rfl

theorem readRange_append : readRange start stop (files ++ files') =
    readRange start stop files ++ readRange start stop files' := by
  rw [readRange, List.filter_append, List.flatMap_append, List.filter_append]
  rfl

theorem readRange_perm (h : files.Perm files') :
    (readRange start stop files).Perm (readRange start stop files') :=
  ((h.filter _).flatMap_right _).filter _

/-- Rows of the range are read or misfiled. -/
theorem length_readRange (h : ∀ f ∈ files, ∀ r ∈ f.rows, inRange start stop r = true) :
    (readRange start stop files).length + (misfiled start stop files).length =
      (files.flatMap (·.rows)).length := by
  have hperm := List.filter_append_perm (fun f => mayHold start stop f.partition) files
  have hread : readRange start stop files =
      (files.filter fun f => mayHold start stop f.partition).flatMap (·.rows) := by
    refine List.filter_eq_self.2 fun r hr => ?_
    obtain ⟨f, hf, hr⟩ := List.mem_flatMap.1 hr
    exact h f (List.mem_filter.1 hf).1 r hr
  rw [hread, misfiled, ← List.length_append, ← List.flatMap_append]
  exact (hperm.flatMap_right _).length_eq

theorem ensureVisible_error :
    (∃ e, ensureVisible plan collect table start stop written = .error e) ↔
      (plan = .ok () → collect = .ok () →
        (readRange start stop table.files).length < written) := by
  unfold ensureVisible
  cases plan with
  | error e => exact ⟨fun _ h => (nomatch h), fun _ => ⟨_, rfl⟩⟩
  | ok u =>
    cases collect with
    | error e => exact ⟨fun _ _ h => (nomatch h), fun _ => ⟨_, rfl⟩⟩
    | ok u =>
      by_cases h : (readRange start stop table.files).length < written
      · exact ⟨fun _ _ _ => h, fun _ => ⟨_, by simp only [if_pos h]; rfl⟩⟩
      · refine ⟨fun ⟨e, he⟩ => ?_, fun hlt => absurd (hlt rfl rfl) h⟩
        simp only [if_neg h] at he
        cases he

end

/-- **When the check catches misfiled rows**: after a run of `streamInto` that wrote `files`, rows of
the window, into a table that holds `others` besides, a misfiled row makes the check fail exactly
when no row is misfiled or the readable rows of `others` are fewer than the misfiled ones. -/
theorem catches_misfiled_iff {schema : Schema} {lake : Lake} (hs : lake.table.schema = schema)
    (ident : String) (cfg : IcebergConfig) (ops : StreamOps) (stream : Stream) (chunkRows : Nat)
    {n : Nat} {w : World}
    (hok : streamInto ops stream chunkRows (connect ident cfg lake) = .ok n w)
    (files : List DataFile) (hf : w.lake.table.files = lake.table.files ++ files)
    (start stop : Int64) (hw : ∀ f ∈ files, ∀ r ∈ f.rows, inRange start stop r = true)
    (others : List DataFile) {table : Table} (ht : table.files.Perm (files ++ others))
    (plan collect : Reply) :
    (misfiled start stop files ≠ [] →
      ∃ e, ensureVisible plan collect table start stop n = .error e) ↔
    (plan = .ok () → collect = .ok () → misfiled start stop files = [] ∨
      (readRange start stop others).length < (misfiled start stop files).length) := by
  obtain ⟨-, ⟨files', hf', hp⟩, hn⟩ :=
    (streamInto_spec (opened_connect ident cfg hs) ops stream chunkRows).ok n w hok
  obtain rfl : files = files' := List.append_cancel_left (hf.symm.trans hf')
  have hlen := length_readRange hw
  rw [hp.length_eq] at hlen
  have hread : (readRange start stop table.files).length =
      (readRange start stop files).length + (readRange start stop others).length := by
    rw [(readRange_perm ht).length_eq, readRange_append, List.length_append]
  have hnil : misfiled start stop files = [] ↔ (misfiled start stop files).length = 0 :=
    List.length_eq_zero_iff.symm
  rw [ensureVisible_error, hread, ne_eq, hnil]
  refine ⟨fun h hplan hcollect => ?_, fun h h0 hplan hcollect => ?_⟩
  · by_cases h0 : (misfiled start stop files).length = 0
    · exact .inl h0
    · have := h h0 hplan hcollect
      exact .inr (by omega)
  · have := (h hplan hcollect).resolve_left h0
    omega

/-- Every row in a file of its own, filed under the day after its own. -/
def dayLate : PartitionWriter where
  split rows := rows.map fun r =>
    (⟨r.exchange, (partitionOf r).tradeTsDay.map (· + 1)⟩, [r], 1)
  perm rows := by simp [List.flatMap_map]
  ne_nil rows p hp := by
    obtain ⟨r, -, rfl⟩ := List.mem_map.1 hp
    exact List.cons_ne_nil _ _

/-- Nothing fails, and the rows are misfiled. -/
def StreamOps.late : StreamOps :=
  { StreamOps.allOk with chunks := fun _ => { CommitOps.allOk with writer := dayLate } }

/-- A run of `streamInto` that misfiles trade 1. -/
def lateRun (lake : Lake) : EStateM.Result Error World Nat :=
  streamInto .late [.ok (outputBatch [.ofEvent (btcTrade 1 1000)])] 1
    (connect "trades.trades" ⟨5⟩ lake)

/-- Into an empty table: caught. -/
theorem catches_misfiled_iff_empty : ∃ e, ensureVisible (.ok ()) (.ok ())
    (final (lateRun .created)).lake.table 0 86400000000 1 = .error e :=
  (catches_misfiled_iff rfl "trades.trades" ⟨5⟩ .late
    [.ok (outputBatch [.ofEvent (btcTrade 1 1000)])] 1
    (rfl : lateRun .created = .ok 1 (final (lateRun .created)))
    (final (lateRun .created)).lake.table.files rfl 0 86400000000
    (by decide +kernel) [] (by rw [List.append_nil]) (.ok ()) (.ok ())).2
    (fun _ _ => .inr (by decide +kernel)) (by decide +kernel)

/-- Into a table that holds trade 3: the check passes, and the read finds trade 3 only. -/
theorem misfiled_unnoticed :
    lateRun (.holding [.ofEvent (btcTrade 3 3000)]) =
      .ok 1 (final (lateRun (.holding [.ofEvent (btcTrade 3 3000)]))) ∧
    readRange 0 86400000000
      (final (lateRun (.holding [.ofEvent (btcTrade 3 3000)]))).lake.table.files =
        [.ofEvent (btcTrade 3 3000)] ∧
    ensureVisible (.ok ()) (.ok ())
      (final (lateRun (.holding [.ofEvent (btcTrade 3 3000)]))).lake.table 0 86400000000 1 =
        .ok 1 :=
  ⟨rfl, by decide +kernel, by decide +kernel⟩

end Query
