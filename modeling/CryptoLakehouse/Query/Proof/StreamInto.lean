import CryptoLakehouse.Query.Append
import CryptoLakehouse.Sink.Proof.AppendRecords

/-!
# Streaming into a table

* `streamInto_spec` — however it ends, `streamInto` has appended a prefix of the rows it could bind
  before the first failure (`accepted`), and all of them when it returns `Ok`; then it reports their
  number, and every batch was bound.
* `streamInto_ok` — it returns `Ok` when every batch binds and no operation fails.
-/

namespace Query

open Arrow Trades Sink Fallible

/-- The batches of the output that bind to a schema, up to the first that does not. -/
def accepted (schema : Schema) : Stream → List RecordBatch
  | .ok batch :: items =>
    match RecordBatch.tryNew schema batch.columns with
    | .ok b => b :: accepted schema items
    | .error _ => []
  | _ => []

/-- Every item of the output is a batch that binds to the schema. -/
def Binds (schema : Schema) (items : Stream) : Prop :=
  ∀ item ∈ items, ∃ batch b, item = .ok batch ∧ RecordBatch.tryNew schema batch.columns = .ok b

/-- The rows that are buffered. -/
def Buffered.rows (s : Buffered) : List TradeRow := s.buffer.flatMap trades

/-- The buffer is bound to the schema and counted. -/
structure Buffered.Wf (schema : Schema) (s : Buffered) : Prop where
  schemas : ∀ b ∈ s.buffer, b.schema = schema
  count : s.buffered = s.rows.length

/-- What streaming `rows` has done when it ends as `r`; `done` of them had been written before. -/
structure Streamed (schema : Schema) (items : Stream) (rows : List TradeRow) (done : Nat)
    (w : World) (r : EStateM.Result Error World Nat) : Prop where
  opened : Opened schema (final r)
  uuid : (final r).sink.fileNameGen.uuid = w.sink.fileNameGen.uuid
  lake : ∃ added, added <+: rows ∧ Grown w.lake (final r).lake added
  ok : ∀ n w', r = .ok n w' →
    Binds schema items ∧ Grown w.lake w'.lake rows ∧ n = done + rows.length

section
variable {schema : Schema} {items : Stream} {ops : CommitOps} {buffer : List RecordBatch}
  {batch b : RecordBatch} {w w' : World} {s : Buffered} {chunkRows : Nat} {rows added : List TradeRow}

theorem accepted_cons (h : RecordBatch.tryNew schema batch.columns = .ok b) :
    accepted schema (.ok batch :: items) = b :: accepted schema items := by
  rw [accepted, h]

theorem accepted_refused {e : Error} (h : RecordBatch.tryNew schema batch.columns = .error e) :
    accepted schema (.ok batch :: items) = [] := by
  rw [accepted, h]

theorem accepted_nil : accepted schema [] = [] := rfl

/-- When every batch binds, all of the output is accepted. -/
theorem accepted_of_binds {batches : List RecordBatch} (h : Binds schema (batches.map .ok)) :
    (accepted schema (batches.map .ok)).flatMap trades = batches.flatMap (boundRows schema) := by
  induction batches with
  | nil => rfl
  | cons batch batches ih =>
    obtain ⟨hb, h⟩ := List.forall_mem_cons.1 h
    obtain ⟨batch', b, he, hb⟩ := hb
    cases he
    rw [List.map_cons, accepted_cons hb, List.flatMap_cons, List.flatMap_cons, ih h,
      trades_of_tryNew hb]

/-! ## The buffer -/

theorem Buffered.Wf.empty {chunks written : Nat} :
    Buffered.Wf schema ⟨[], 0, chunks, written⟩ := ⟨nofun, rfl⟩

theorem Buffered.rows_snoc (s : Buffered) (b : RecordBatch) (buffered chunks written : Nat) :
    Buffered.rows ⟨s.buffer ++ [b], buffered, chunks, written⟩ = s.rows ++ trades b := by
  simp [Buffered.rows]

theorem numRows_of_tryNew (h : RecordBatch.tryNew schema batch.columns = .ok b) :
    batch.numRows = (trades b).length := by
  obtain ⟨-, -, -, hr⟩ := RecordBatch.tryNew_eq_ok.1 h
  rw [trades, hr, List.length_map]
  rfl

theorem Buffered.Wf.snoc (hs : s.Wf schema) (chunks written : Nat)
    (h : RecordBatch.tryNew schema batch.columns = .ok b) :
    Buffered.Wf schema ⟨s.buffer ++ [b], s.buffered + batch.numRows, chunks, written⟩ where
  schemas c hc := by
    rcases List.mem_append.1 hc with hc | hc
    · exact hs.schemas c hc
    · rw [List.mem_singleton.1 hc]
      exact (RecordBatch.tryNew_eq_ok.1 h).2.2.1
  count := by
    rw [Buffered.rows_snoc, List.length_append, ← hs.count, numRows_of_tryNew h]

theorem Buffered.Wf.ne_nil (hs : s.Wf schema) (h : 0 < s.buffered) : s.buffer ≠ [] := by
  intro he
  have hc := hs.count
  rw [Buffered.rows, he] at hc
  exact Nat.lt_irrefl _ (hc ▸ h)

/-! ## One chunk -/

/-- The batch of a chunk has the rows of the buffer. -/
theorem concat_trades {b₀ : RecordBatch} {bs : List RecordBatch}
    (h : ∀ b ∈ b₀ :: bs, b.schema = schema) :
    ∃ c, RecordBatch.concatBatches b₀.schema (b₀ :: bs) = .ok c ∧ c.schema = schema ∧
      trades c = (b₀ :: bs).flatMap trades := by
  have h₀ := h b₀ List.mem_cons_self
  obtain ⟨c, hc, hs, hr⟩ := RecordBatch.concatBatches_eq_ok h
  refine ⟨c, by rw [h₀]; exact hc, hs, ?_⟩
  rw [trades, hs, hr, List.map_flatMap]
  exact List.flatMap_congr fun b hb => by rw [trades, h b hb]

theorem flush_eq (ops : CommitOps) (w : World) (hne : buffer ≠ [])
    (h : ∀ b ∈ buffer, b.schema = schema) :
    ∃ c, RecordBatch.concatBatches schema buffer = .ok c ∧ c.schema = schema ∧
      trades c = buffer.flatMap trades ∧
      flush ops buffer w = (do return (← appendRecords ops c).rows : SinkM Nat) w := by
  cases buffer with
  | nil => exact absurd rfl hne
  | cons b₀ bs =>
    obtain ⟨c, hc, hs, ht⟩ := concat_trades h
    exact ⟨c, h b₀ List.mem_cons_self ▸ hc, hs, ht, by rw [flush, hc, bind_of_ok ofExcept_ok]⟩

/-- **A chunk** is appended at most once, and exactly once when it succeeds. -/
theorem flush_spec (h : Opened schema w) (ops : CommitOps) (hne : buffer ≠ [])
    (hb : ∀ b ∈ buffer, b.schema = schema) :
    Appended schema (buffer.flatMap trades) w (flush ops buffer w) ∧
    ∀ n w', flush ops buffer w = .ok n w' → n = (buffer.flatMap trades).length := by
  obtain ⟨c, -, hs, ht, he⟩ := flush_eq ops w hne hb
  have ha := appendRecords_spec h ops c
  rw [← hs, boundRows_self, ht, hs] at ha
  rw [he]
  cases hr : appendRecords ops c w with
  | error e w₁ =>
    rw [hr] at ha
    rw [bind_of_error hr]
    exact ⟨⟨ha.opened, ha.uuid, ha.lake, nofun⟩, nofun⟩
  | ok stats w₁ =>
    have hrows := appendRecords_rows hr
    rw [hr] at ha
    rw [bind_of_ok hr]
    refine ⟨⟨ha.opened, ha.uuid, ha.lake, fun _ => ha.ok rfl⟩, fun n w' hn => ?_⟩
    cases hn
    rw [hrows, ← ht, trades, List.length_map]
    rfl

/-- With nothing failing, a chunk is appended. -/
theorem flush_ok (h : Opened schema w) (hne : buffer ≠ []) (hb : ∀ b ∈ buffer, b.schema = schema)
    (hw : ops.writeRecords = .ok ()) (hc : ops.commits 1 = .applied) :
    ∃ n w', flush ops buffer w = .ok n w' := by
  obtain ⟨c, -, hs, -, he⟩ := flush_eq ops w hne hb
  have ht : RecordBatch.tryNew schema c.columns = .ok c :=
    RecordBatch.tryNew_eq_ok.2 ⟨by rw [← hs]; rfl, hs ▸ c.nulls, hs, rfl⟩
  have hok := appendRecords_ok h ht hw hc
  rw [he]
  cases hr : appendRecords ops c w with
  | error e w₁ => rw [hr] at hok; exact absurd hok Bool.false_ne_true
  | ok stats w₁ => exact ⟨_, _, bind_of_ok hr⟩

/-! ## The loop -/

/-- Streaming that stopped before it wrote anything. -/
theorem Streamed.stopped {done : Nat} {e : Error} (h : Opened schema w) :
    Streamed schema items rows done w (.error e w) :=
  ⟨h, rfl, ⟨[], List.nil_prefix, grown_nil⟩, nofun⟩

/-- Streaming that failed in a chunk. -/
theorem Streamed.failed {done : Nat} {e : Error} {rest : List TradeRow} {α : Type}
    {r : EStateM.Result Error World α} (h : Appended schema rows w r) (hr : final r = w') :
    Streamed schema items (rows ++ rest) done w (.error e w') := by
  subst hr
  refine ⟨h.opened, h.uuid, ?_, nofun⟩
  rcases h.lake with hl | hl
  · exact ⟨[], List.nil_prefix, hl ▸ grown_nil⟩
  · exact ⟨rows, List.prefix_append _ _, hl.grown⟩

/-- Streaming that went on after a chunk. -/
theorem Streamed.after {done : Nat} {r : EStateM.Result Error World Nat} {rest : List TradeRow}
    (hu : w'.sink.fileNameGen.uuid = w.sink.fileNameGen.uuid) (hg : Grown w.lake w'.lake rows)
    (h : Streamed schema items rest (done + rows.length) w' r) :
    Streamed schema items (rows ++ rest) done w r := by
  obtain ⟨added, hp, hl⟩ := h.lake
  refine ⟨h.opened, h.uuid.trans hu, ⟨rows ++ added, ?_, hg.trans hl⟩, fun n w₁ hr => ?_⟩
  · exact (List.prefix_append_right_inj rows).2 hp
  · obtain ⟨hb, hl, hn⟩ := h.ok n w₁ hr
    exact ⟨hb, hg.trans hl, by rw [hn, List.length_append, Nat.add_assoc]⟩

/-- One more batch was bound. -/
theorem Streamed.bound {done : Nat} {r : EStateM.Result Error World Nat}
    (hb : RecordBatch.tryNew schema batch.columns = .ok b)
    (h : Streamed schema items rows done w r) :
    Streamed schema (.ok batch :: items) rows done w r := by
  refine ⟨h.opened, h.uuid, h.lake, fun n w₁ hr => ?_⟩
  obtain ⟨hi, hrest⟩ := h.ok n w₁ hr
  exact ⟨List.forall_mem_cons.2 ⟨⟨batch, b, rfl, hb⟩, hi⟩, hrest⟩

/-- The last, smaller chunk. -/
theorem streamFrom_nil (h : Opened schema w) (ops : StreamOps) (hs : s.Wf schema) :
    Streamed schema [] s.rows s.written w (streamFrom ops schema chunkRows [] s w) := by
  rw [streamFrom]
  by_cases h0 : 0 < s.buffered
  · rw [if_pos h0]
    have hne := hs.ne_nil h0
    obtain ⟨ha, hn⟩ := flush_spec h (ops.chunks s.chunks) hne hs.schemas
    cases hf : flush (ops.chunks s.chunks) s.buffer w with
    | error e w' =>
      rw [bind_of_error hf, ← List.append_nil s.rows]
      rw [hf] at ha
      exact .failed ha rfl
    | ok n w' =>
      rw [bind_of_ok hf]
      have hrows := hn n w' hf
      rw [hf] at ha
      have hgrown := (ha.ok rfl).grown
      refine ⟨ha.opened, ha.uuid, ⟨_, List.prefix_refl _, hgrown⟩, fun m w₁ hm => ?_⟩
      cases hm
      exact ⟨nofun, hgrown, by rw [hrows]; rfl⟩
  · rw [if_neg h0]
    have hnil : s.rows = [] := List.length_eq_zero_iff.1 (by have := hs.count; omega)
    rw [hnil]
    refine ⟨h, rfl, ⟨[], List.nil_prefix, grown_nil⟩, fun m w₁ hm => ?_⟩
    cases hm
    exact ⟨nofun, grown_nil, rfl⟩

/-- The loop from any point: what is buffered, then what it accepts. -/
theorem streamFrom_spec (ops : StreamOps) (items : Stream) (h : Opened schema w)
    (hs : s.Wf schema) :
    Streamed schema items (s.rows ++ (accepted schema items).flatMap trades) s.written w
      (streamFrom ops schema chunkRows items s w) := by
  induction items generalizing s w with
  | nil =>
    rw [accepted_nil, List.flatMap_nil, List.append_nil]
    exact streamFrom_nil h ops hs
  | cons item items ih =>
    rw [streamFrom]
    cases item with
    | error why => exact .stopped h
    | ok batch =>
      rw [bind_of_ok answerContext_ok]
      cases hb : RecordBatch.tryNew schema batch.columns with
      | error e => exact .stopped h
      | ok b =>
        rw [Except.withContext_ok, bind_of_ok ofExcept_ok, accepted_cons hb, List.flatMap_cons,
          ← List.append_assoc]
        have hs' := hs.snoc s.chunks s.written hb
        have hrows := s.rows_snoc b (s.buffered + batch.numRows) s.chunks s.written
        refine .bound hb ?_
        by_cases hc : chunkRows ≤ s.buffered + batch.numRows
        · rw [if_pos hc]
          have hne : s.buffer ++ [b] ≠ [] := by simp
          obtain ⟨ha, hn⟩ := flush_spec h (ops.chunks s.chunks) hne hs'.schemas
          rw [← hrows]
          cases hf : flush (ops.chunks s.chunks) (s.buffer ++ [b]) w with
          | error e w' =>
            rw [bind_of_error hf]
            rw [hf] at ha
            exact .failed ha rfl
          | ok n w' =>
            rw [bind_of_ok hf]
            obtain rfl := hn n w' hf
            rw [hf] at ha
            exact .after ha.uuid (ha.ok rfl).grown (ih ha.opened .empty)
        · rw [if_neg hc, ← hrows]
          exact ih h hs'

/-- **Streaming** appends a prefix of the accepted rows, and all of them when it succeeds. -/
theorem streamInto_spec (h : Opened schema w) (ops : StreamOps) (stream : Stream)
    (chunkRows : Nat) :
    Streamed schema stream ((accepted schema stream).flatMap trades) 0 w
      (streamInto ops stream chunkRows w) := by
  rw [streamInto, bind_of_ok (arrowSchema_ok h)]
  cases hp : ops.plan with
  | error why => exact .stopped h
  | ok u =>
    rw [bind_of_ok answerContext_ok]
    cases hst : ops.start with
    | error why => exact .stopped h
    | ok u =>
      rw [bind_of_ok answerContext_ok]
      exact streamFrom_spec (s := .empty) ops stream h .empty

/-! ## Streams that nothing stops -/

/-- No operation fails. -/
structure StreamOps.Ok (ops : StreamOps) : Prop where
  plan : ops.plan = .ok ()
  start : ops.start = .ok ()
  writeRecords : ∀ n, (ops.chunks n).writeRecords = .ok ()
  commits : ∀ n, (ops.chunks n).commits 1 = .applied

theorem StreamOps.ok_allOk : StreamOps.allOk.Ok := ⟨rfl, rfl, fun _ => rfl, fun _ => rfl⟩

theorem streamFrom_ok {ops : StreamOps} (ho : ops.Ok) (items : Stream) (h : Opened schema w)
    (hs : s.Wf schema) (hb : Binds schema items) :
    ∃ n w', streamFrom ops schema chunkRows items s w = .ok n w' := by
  induction items generalizing s w with
  | nil =>
    rw [streamFrom]
    by_cases h0 : 0 < s.buffered
    · have hne := hs.ne_nil h0
      obtain ⟨n, w', hf⟩ := flush_ok h hne hs.schemas (ho.writeRecords _) (ho.commits _)
      rw [if_pos h0, bind_of_ok hf]
      exact ⟨_, _, rfl⟩
    · rw [if_neg h0]
      exact ⟨_, _, rfl⟩
  | cons item items ih =>
    obtain ⟨hitem, hrest⟩ := List.forall_mem_cons.1 hb
    obtain ⟨batch, b, rfl, hb₀⟩ := hitem
    rw [streamFrom, bind_of_ok answerContext_ok, hb₀, Except.withContext_ok,
      bind_of_ok ofExcept_ok]
    have hs' := hs.snoc s.chunks s.written hb₀
    by_cases hc : chunkRows ≤ s.buffered + batch.numRows
    · have hne : s.buffer ++ [b] ≠ [] := by simp
      obtain ⟨n, w', hf⟩ := flush_ok h hne hs'.schemas (ho.writeRecords _) (ho.commits _)
      have ha := (flush_spec h (ops.chunks s.chunks) hne hs'.schemas).1
      rw [hf] at ha
      rw [if_pos hc, bind_of_ok hf]
      exact ih ha.opened .empty hrest
    · rw [if_neg hc]
      exact ih h hs' hrest

theorem streamInto_ok {ops : StreamOps} {stream : Stream} (h : Opened schema w) (ho : ops.Ok)
    (hb : Binds schema stream) (chunkRows : Nat) :
    ∃ n w', streamInto ops stream chunkRows w = .ok n w' := by
  rw [streamInto, bind_of_ok (arrowSchema_ok h), ho.plan, bind_of_ok answerContext_ok, ho.start,
    bind_of_ok answerContext_ok]
  exact streamFrom_ok ho stream h .empty hb

end

end Query
