import CryptoLakehouse.Query.Engine
import CryptoLakehouse.Query.Proof.StreamInto

/-!
# Appending a result

`appendQuery_spec`: a run appends some of its query's rows, none of them with a NULL, and all of
them when it completes.
-/

namespace Query

open Arrow Trades Sink Fallible

/-- What a run whose query has the result `rows` has done to the table. -/
structure Ran (rows : List TradeRow) (lake : Lake) (r : Lake × Except Error Nat) : Prop where
  schema : r.1.table.schema = lake.table.schema
  grown : ∃ added, added.Subperm rows ∧ (∀ a ∈ added, a.full = true) ∧ Grown lake r.1 added
  ok : ∀ n, r.2 = .ok n → (∀ a ∈ rows, a.full = true) ∧ Grown lake r.1 rows

theorem afterRuns_concat (run : RunOps → Lake → Lake × Except Error Nat) (lake : Lake)
    (runs : List RunOps) (ops : RunOps) :
    afterRuns run lake (runs ++ [ops]) = (run ops (afterRuns run lake runs)).1 := by
  simp [afterRuns]

section
variable {batch rows : List TradeRow} {tail : Stream}
  {b : RecordBatch} {w : World} {lake : Lake} {ops : RunOps}

/-- A batch of a result is written as it is. -/
theorem trades_outputBatch (h : RecordBatch.tryNew schema (outputBatch batch).columns = .ok b) :
    trades b = batch ∧ ∀ r ∈ batch, r.full = true := by
  refine ⟨?_, tryNew_outputBatch.1 ⟨b, h⟩⟩
  rw [trades_of_tryNew h, boundRows, outputBatch, List.map_map]
  exact List.map_id'' read_toRow_row batch

/-- What is accepted of a result: its first rows, none of them with a NULL. -/
theorem accepted_output (batches : List (List TradeRow)) (ht : accepted schema tail = []) :
    (accepted schema (batches.map (fun b => .ok (outputBatch b)) ++ tail)).flatMap trades <+:
        batches.flatten ∧
      ∀ r ∈ (accepted schema (batches.map (fun b => .ok (outputBatch b)) ++ tail)).flatMap trades,
        r.full = true := by
  induction batches with
  | nil =>
    rw [List.map_nil, List.nil_append, ht]
    exact ⟨List.nil_prefix, fun r hr => absurd hr List.not_mem_nil⟩
  | cons batch batches ih =>
    rw [List.map_cons, List.cons_append]
    cases hb : RecordBatch.tryNew schema (outputBatch batch).columns with
    | error e =>
      rw [accepted_refused hb]
      exact ⟨List.nil_prefix, fun r hr => absurd hr List.not_mem_nil⟩
    | ok b =>
      obtain ⟨hrows, hfull⟩ := trades_outputBatch hb
      rw [accepted_cons hb, List.flatMap_cons, hrows, List.flatten_cons]
      refine ⟨(List.prefix_append_right_inj batch).2 ih.1, fun r hr => ?_⟩
      exact (List.mem_append.1 hr).elim (hfull r) (ih.2 r)

theorem accepted_failure (why : Option String) :
    accepted schema (why.toList.map .error) = [] := by
  cases why <;> rfl

theorem accepted_stream (exec : Execution) (rows : List TradeRow) :
    ((accepted schema (exec.stream rows)).flatMap trades).Subperm rows ∧
      ∀ r ∈ (accepted schema (exec.stream rows)).flatMap trades, r.full = true := by
  obtain ⟨hp, hfull⟩ := accepted_output (exec.batches rows) (accepted_failure (exec.failure rows))
  exact ⟨hp.sublist.subperm.trans (exec.part rows), hfull⟩

/-- A stream that binds to its end has yielded the whole result. -/
theorem accepted_whole {exec : Execution} (h : Binds schema (exec.stream rows)) :
    ((accepted schema (exec.stream rows)).flatMap trades).Perm rows := by
  have hf : exec.failure rows = none := by
    cases hf : exec.failure rows with
    | none => rfl
    | some why =>
      have hm : (.error why : Except String RecordBatch) ∈ exec.stream rows := by
        rw [Execution.stream, hf]
        exact List.mem_append_right _ (List.mem_singleton_self _)
      obtain ⟨batch, b, he, -⟩ := h _ hm
      cases he
  have hs : exec.stream rows = ((exec.batches rows).map outputBatch).map .ok := by
    rw [Execution.stream, hf, List.map_map]
    exact List.append_nil _
  rw [hs] at h ⊢
  have hrows : ∀ batch, boundRows schema (outputBatch batch) = batch := fun batch => by
    rw [boundRows, outputBatch, List.map_map]
    exact List.map_id'' read_toRow_row batch
  rw [accepted_of_binds h, List.flatMap_map]
  simp only [hrows]
  rw [List.flatMap_id']
  exact exec.whole rows hf

/-- Reading the window back leaves the table as the stream left it. -/
theorem final_appendTo (ops : RunOps) (query : List TradeRow → List TradeRow) (start stop : Int64)
    (chunkRows : Nat) (w : World) : final (appendTo ops query start stop chunkRows w) =
      final (streamInto ops.stream (ops.exec.stream (query w.lake.rows)) chunkRows w) := by
  rw [appendTo, bind_of_ok get_apply]
  cases hr : streamInto ops.stream (ops.exec.stream (query w.lake.rows)) chunkRows w with
  | error e w' => rw [bind_of_error hr]
  | ok n w' =>
    rw [bind_of_ok hr, bind_of_ok get_apply]
    cases ensureVisible ops.planVerify ops.collectVerify w'.lake.table start stop n <;> rfl

/-- A run that completes has streamed its whole result. -/
theorem streamInto_of_appendTo {query : List TradeRow → List TradeRow} {start stop : Int64}
    {chunkRows : Nat} (h : succeeded (appendTo ops query start stop chunkRows w) = true) :
    ∃ n w', streamInto ops.stream (ops.exec.stream (query w.lake.rows)) chunkRows w = .ok n w' := by
  obtain ⟨m, w'', hr⟩ := succeeded_iff.1 h
  rw [appendTo, bind_of_ok get_apply] at hr
  obtain ⟨n, w', hs, -⟩ := bind_ok.1 hr
  exact ⟨n, w', hs⟩

/-- Streaming a result into an open table, and reading the window back. -/
theorem appendTo_spec (h : Opened schema w) (ops : RunOps) (query : List TradeRow → List TradeRow)
    (start stop : Int64) (chunkRows : Nat) :
    (final (appendTo ops query start stop chunkRows w)).lake.table.schema = schema ∧
    (∃ added, added.Subperm (query w.lake.rows) ∧ (∀ a ∈ added, a.full = true) ∧
      Grown w.lake (final (appendTo ops query start stop chunkRows w)).lake added) ∧
    (succeeded (appendTo ops query start stop chunkRows w) = true →
      (∀ a ∈ query w.lake.rows, a.full = true) ∧
      Grown w.lake (final (appendTo ops query start stop chunkRows w)).lake (query w.lake.rows)) := by
  obtain ⟨hsub, hfull⟩ := accepted_stream ops.exec (query w.lake.rows)
  have hs := streamInto_spec h ops.stream (ops.exec.stream (query w.lake.rows)) chunkRows
  obtain ⟨added, hp, hg⟩ := hs.lake
  rw [final_appendTo]
  refine ⟨hs.opened.lakeSchema, ⟨added, hp.sublist.subperm.trans hsub,
    fun a ha => hfull a (hp.subset ha), hg⟩, fun hok => ?_⟩
  obtain ⟨n, w', hr⟩ := streamInto_of_appendTo hok
  obtain ⟨hb, ⟨files, hf, hperm⟩, -⟩ := hs.ok n w' hr
  have hw := accepted_whole hb
  exact ⟨fun a ha => hfull a (hw.mem_iff.2 ha), by rw [hr]; exact ⟨files, hf, hperm.trans hw⟩⟩

/-- The table after a run that has opened it. -/
theorem appendQuery_lake (ho : ops.openTable = .ok ()) (ident : String)
    (query : List TradeRow → List TradeRow) (start stop : Int64) (chunkRows : Nat) :
    (appendQuery ops ident query start stop chunkRows lake).1 =
      (final (streamInto ops.stream (ops.exec.stream (query lake.rows)) chunkRows
        (connect ident ops.cfg lake))).lake := by
  show _ = (final (streamInto ops.stream
    (ops.exec.stream (query (connect ident ops.cfg lake).lake.rows)) chunkRows _)).lake
  rw [appendQuery, ho, ← final_appendTo ops query start stop]
  dsimp only
  cases appendTo ops query start stop chunkRows (connect ident ops.cfg lake) <;> rfl

/-- **A run** appends some of its query's rows, and all of them when it completes. -/
theorem appendQuery_spec (h : lake.table.schema = schema) (ops : RunOps) (ident : String)
    (query : List TradeRow → List TradeRow) (start stop : Int64) (chunkRows : Nat) :
    Ran (query lake.rows) lake (appendQuery ops ident query start stop chunkRows lake) := by
  rw [appendQuery]
  cases ops.openTable with
  | error why =>
    exact ⟨rfl, ⟨[], List.nil_subperm, fun a ha => absurd ha List.not_mem_nil, grown_nil⟩,
      fun n h => nomatch h⟩
  | ok u =>
    obtain ⟨hs, hg, hok⟩ := appendTo_spec (opened_connect ident ops.cfg h) ops query start stop
      chunkRows
    dsimp only
    cases hr : appendTo ops query start stop chunkRows (connect ident ops.cfg lake) with
    | error e w =>
      rw [hr] at hs hg
      exact ⟨hs.trans h.symm, hg, fun n h => nomatch h⟩
    | ok n w =>
      rw [hr] at hs hg hok
      exact ⟨hs.trans h.symm, hg, fun _ _ => hok rfl⟩

end

end Query
