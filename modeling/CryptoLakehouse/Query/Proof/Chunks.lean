import CryptoLakehouse.Query.Proof.Output

/-!
# Chunks

`chunks` are the batches that `streamInto` hands to `appendRecords`, one commit each.
`streamInto_chunks`: streaming leaves the table as appending its chunks one after the other does.
-/

namespace Query

open Arrow Trades Sink Fallible

/-- The batch that `flush` appends. -/
def concat (buffer : List RecordBatch) : List RecordBatch :=
  match buffer with
  | [] => []
  | b :: _ => (RecordBatch.concatBatches b.schema buffer).toOption.toList

/-- The chunks of the loop, up to the first failure of the stream or of a binding. -/
def chunksFrom (schema : Schema) (chunkRows : Nat) :
    Stream → List RecordBatch → Nat → List RecordBatch
  | [], buffer, buffered => if 0 < buffered then concat buffer else []
  | .error _ :: _, _, _ => []
  | .ok batch :: items, buffer, buffered =>
    match RecordBatch.tryNew schema batch.columns with
    | .error _ => []
    | .ok bound =>
      if chunkRows ≤ buffered + batch.numRows then
        concat (buffer ++ [bound]) ++ chunksFrom schema chunkRows items [] 0
      else chunksFrom schema chunkRows items (buffer ++ [bound]) (buffered + batch.numRows)

def chunks (schema : Schema) (chunkRows : Nat) (stream : Stream) : List RecordBatch :=
  chunksFrom schema chunkRows stream [] 0

/-- Appends the chunks from number `n` on, until one fails. -/
def appendChunks (ops : Nat → CommitOps) : Nat → List RecordBatch → SinkM Unit
  | _, [] => return ()
  | n, c :: cs => do
    let _ ← appendRecords (ops n) c
    appendChunks ops (n + 1) cs

section
variable {schema : Schema} {chunkRows : Nat} {items : Stream} {s : Buffered} {w : World}
  {buffer : List RecordBatch} {c : RecordBatch} {ops : StreamOps}

/-- A bound buffer makes one chunk, with its rows. -/
theorem concat_eq (hne : buffer ≠ []) (h : ∀ b ∈ buffer, b.schema = schema) :
    ∃ c, concat buffer = [c] ∧ c.schema = schema ∧ trades c = buffer.flatMap trades ∧
      ∀ ops w, flush ops buffer w = (do return (← appendRecords ops c).rows : SinkM Nat) w := by
  cases buffer with
  | nil => exact absurd rfl hne
  | cons b₀ bs =>
    obtain ⟨c, hc, hs, ht⟩ := concat_trades h
    exact ⟨c, by rw [concat, hc]; rfl, hs, ht, fun ops w => by rw [flush, hc, bind_of_ok ofExcept_ok]⟩

/-- What follows a flush, and what follows the append of its chunk. -/
theorem final_flush_bind {α β : Type} {ops : CommitOps} {f : Nat → SinkM α}
    {g : AppendStats → SinkM β} (hf : ∀ ops w, flush ops buffer w =
      (do return (← appendRecords ops c).rows : SinkM Nat) w)
    (hfg : ∀ stats w', appendRecords ops c w = .ok stats w' →
      final (f stats.rows w') = final (g stats w')) :
    final ((flush ops buffer >>= f) w) = final ((appendRecords ops c >>= g) w) := by
  have hflush := hf ops w
  cases hr : appendRecords ops c w with
  | error e w' =>
    rw [bind_of_error hr] at hflush
    rw [bind_of_error hflush, bind_of_error hr]
    rfl
  | ok stats w' =>
    rw [bind_of_ok hr] at hflush
    rw [bind_of_ok hflush, bind_of_ok hr]
    exact hfg stats w' hr

theorem chunksFrom_spec (chunkRows : Nat) (items : Stream) (hs : s.Wf schema) :
    (∀ c ∈ chunksFrom schema chunkRows items s.buffer s.buffered, c.schema = schema) ∧
      (chunksFrom schema chunkRows items s.buffer s.buffered).flatMap trades <+:
        s.rows ++ (accepted schema items).flatMap trades := by
  have hnil : ∀ {rows : List TradeRow}, (∀ c ∈ ([] : List RecordBatch), c.schema = schema) ∧
      ([] : List RecordBatch).flatMap trades <+: rows :=
    ⟨fun c hc => absurd hc List.not_mem_nil, List.nil_prefix⟩
  induction items generalizing s with
  | nil =>
    rw [chunksFrom]
    by_cases h0 : 0 < s.buffered
    · obtain ⟨c, hc, hcs, ht, -⟩ := concat_eq (hs.ne_nil h0) hs.schemas
      rw [if_pos h0, hc]
      refine ⟨fun c' hc' => List.mem_singleton.1 hc' ▸ hcs, ?_⟩
      rw [List.flatMap_singleton, ht, accepted_nil, List.flatMap_nil, List.append_nil]
      exact List.prefix_refl _
    · rw [if_neg h0]
      exact hnil
  | cons item items ih =>
    cases item with
    | error why => exact hnil
    | ok batch =>
      rw [chunksFrom]
      cases hb : RecordBatch.tryNew schema batch.columns with
      | error e => exact hnil
      | ok bound =>
        have hs' := hs.snoc s.chunks s.written hb
        have hrows := s.rows_snoc bound (s.buffered + batch.numRows) s.chunks s.written
        rw [accepted_cons hb, List.flatMap_cons, ← List.append_assoc, ← hrows]
        dsimp only
        by_cases hc : chunkRows ≤ s.buffered + batch.numRows
        · have hne : s.buffer ++ [bound] ≠ [] := by simp
          obtain ⟨c, hcc, hcs, ht, -⟩ := concat_eq hne hs'.schemas
          obtain ⟨hrest, hpre⟩ := ih (.empty : Buffered.Wf schema .empty)
          rw [if_pos hc, hcc, List.singleton_append]
          refine ⟨List.forall_mem_cons.2 ⟨hcs, hrest⟩, ?_⟩
          rw [List.flatMap_cons, ht]
          exact (List.prefix_append_right_inj _).2 hpre
        · rw [if_neg hc]
          exact ih hs'

theorem streamFrom_chunks (h : Opened schema w) (hs : s.Wf schema) :
    final (streamFrom ops schema chunkRows items s w) =
      final (appendChunks ops.chunks s.chunks
        (chunksFrom schema chunkRows items s.buffer s.buffered) w) := by
  induction items generalizing s w with
  | nil =>
    rw [streamFrom, chunksFrom]
    by_cases h0 : 0 < s.buffered
    · obtain ⟨c, hc, -, -, hf⟩ := concat_eq (hs.ne_nil h0) hs.schemas
      rw [if_pos h0, if_pos h0, hc, appendChunks]
      exact final_flush_bind hf fun stats w' _ => rfl
    · rw [if_neg h0, if_neg h0]
      rfl
  | cons item items ih =>
    rw [streamFrom]
    cases item with
    | error why => rfl
    | ok batch =>
      rw [bind_of_ok answerContext_ok, chunksFrom]
      cases hb : RecordBatch.tryNew schema batch.columns with
      | error e => rfl
      | ok bound =>
        rw [Except.withContext_ok, bind_of_ok ofExcept_ok]
        have hs' := hs.snoc s.chunks s.written hb
        dsimp only
        by_cases hc : chunkRows ≤ s.buffered + batch.numRows
        · have hne : s.buffer ++ [bound] ≠ [] := by simp
          obtain ⟨c, hcc, -, -, hf⟩ := concat_eq hne hs'.schemas
          rw [if_pos hc, if_pos hc, hcc, List.singleton_append, appendChunks]
          refine final_flush_bind hf fun stats w' hr => ?_
          have ho := (appendRecords_spec h (ops.chunks s.chunks) c).opened
          rw [hr] at ho
          exact ih ho .empty
        · rw [if_neg hc, if_neg hc]
          exact ih h hs'

/-- **Streaming is appending the chunks**, one commit each. -/
theorem streamInto_chunks (h : Opened schema w) (hp : ops.plan = .ok ()) (hst : ops.start = .ok ())
    (stream : Stream) (chunkRows : Nat) : final (streamInto ops stream chunkRows w) =
      final (appendChunks ops.chunks 0 (chunks schema chunkRows stream) w) := by
  rw [streamInto, bind_of_ok (arrowSchema_ok h), hp, bind_of_ok answerContext_ok, hst,
    bind_of_ok answerContext_ok]
  exact streamFrom_chunks h .empty

/-- The chunks of a result: some of its rows, none with a NULL. -/
theorem chunks_stream (exec : Execution) (rows : List TradeRow) (chunkRows : Nat) :
    (∀ c ∈ chunks Trades.schema chunkRows (exec.stream rows), c.schema = Trades.schema) ∧
      ((chunks Trades.schema chunkRows (exec.stream rows)).flatMap trades).Subperm rows := by
  obtain ⟨hs, hp⟩ := chunksFrom_spec chunkRows (exec.stream rows)
    (.empty : Buffered.Wf Trades.schema .empty)
  exact ⟨hs, hp.sublist.subperm.trans (accepted_stream exec rows).1⟩

end

end Query
