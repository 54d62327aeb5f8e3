import CryptoLakehouse.Query.Proof.StreamInto

/-!
# Exactly once, in order

What `streamInto` commits, chunk by chunk: it does nothing to the table but call `appendRecords`,
once for each chunk (`Committed`). The counter that decides when a chunk is full is kept apart from
the buffer it describes, and `Buffered.Wf` ties the two together; `Buffered.Small` adds that a chunk
not yet full is below the threshold.

* `flush_not_panic` — the buffer is never empty when it is flushed.
* `streamFrom_chunked` — the chunks, from any point of the loop on.
* `streamInto_exactly_once` — the whole stream: all of its batches when it returns `Ok`, and whole
  batches from the front when it does not.
-/

namespace Query

open Arrow Trades Sink Fallible

/-- The rows of a chunk. -/
def chunkRowsOf (chunk : List RecordBatch) : List TradeRow := chunk.flatMap trades

/-- From world `w` on, `append_records` was called with chunk after chunk, the n-th time with the
operations `ops n`, and left world `w'`; the `chunks` are those that were committed, each as one
snapshot. The calls return `Ok` but for the last, which may fail after its commit or before. -/
inductive Committed (schema : Schema) (ops : Nat → CommitOps) :
    Nat → World → List (List RecordBatch) → World → Prop
  | nil {n : Nat} {w : World} : Committed schema ops n w [] w
  | cons {n : Nat} {w m w' : World} {chunk : List RecordBatch} {chunks : List (List RecordBatch)}
      {c : RecordBatch} {stats : AppendStats} (hc : RecordBatch.concatBatches schema chunk = .ok c)
      (h : appendRecords (ops n) c w = .ok stats m)
      (hone : OneSnapshot w.lake m.lake (chunkRowsOf chunk))
      (hs : Committed schema ops (n + 1) m chunks w') :
      Committed schema ops n w (chunk :: chunks) w'
  | lost {n : Nat} {w w' : World} {chunk : List RecordBatch} {c : RecordBatch} {e : Error}
      (hc : RecordBatch.concatBatches schema chunk = .ok c)
      (h : appendRecords (ops n) c w = .error e w')
      (hone : OneSnapshot w.lake w'.lake (chunkRowsOf chunk)) : Committed schema ops n w [chunk] w'
  | failed {n : Nat} {w w' : World} {chunk : List RecordBatch} {c : RecordBatch} {e : Error}
      (hc : RecordBatch.concatBatches schema chunk = .ok c)
      (h : appendRecords (ops n) c w = .error e w') (hnone : w'.lake = w.lake) :
      Committed schema ops n w [] w'

/-- A chunk is cut as soon as it is full. -/
def CutAt (chunkRows : Nat) (chunk : List RecordBatch) : Prop :=
  chunkRows ≤ (chunkRowsOf chunk).length ∧
    (0 < chunkRows → (chunkRowsOf chunk.dropLast).length < chunkRows)

/-- What is buffered is below the threshold. -/
def Buffered.Small (chunkRows : Nat) (s : Buffered) : Prop :=
  0 < chunkRows → s.buffered < chunkRows

/-- The chunks that a run over `batches` has committed when it ends as `r`, from chunk number `n`
on. -/
structure Chunked (schema : Schema) (ops : Nat → CommitOps) (n chunkRows : Nat)
    (batches : List RecordBatch) (w : World) (r : EStateM.Result Error World Nat)
    (chunks : List (List RecordBatch)) : Prop where
  committed : Committed schema ops n w chunks (final r)
  nonempty : ∀ chunk ∈ chunks, chunk ≠ []
  whole : chunks.flatten <+: batches
  cut : ∀ chunk ∈ chunks.dropLast, CutAt chunkRows chunk
  ok : succeeded r = true → chunkRowsOf chunks.flatten = chunkRowsOf batches
  no_panic : ∀ text w', r ≠ .error (.panic text) w'

@[simp] theorem chunkRowsOf_append {chunk chunk' : List RecordBatch} :
    chunkRowsOf (chunk ++ chunk') = chunkRowsOf chunk ++ chunkRowsOf chunk' :=
  List.flatMap_append

/-! ## No panic -/

/-- Every error of `x` is the context of another, so not a panic. -/
def Wraps {α : Type} (x : SinkM α) : Prop :=
  ∀ w e w', x w = .error e w' → ∃ text cause, e = .context text cause

section
variable {α β : Type} {x : SinkM α} {f : α → SinkM β} {text : String}

theorem Wraps.bind (hx : Wraps x) (hf : ∀ a, Wraps (f a)) : Wraps (x >>= f) := by
  intro w e w' h
  rcases bind_error.1 h with h | ⟨a, w₁, -, h⟩
  · exact hx w e w' h
  · exact hf a w₁ e w' h

theorem wraps_pure (a : α) : Wraps (pure a : SinkM α) := fun _ _ _ h => by cases h

theorem wraps_get : Wraps (get : SinkM World) := fun _ _ _ h => by cases h

theorem wraps_set (w : World) : Wraps (set w : SinkM PUnit) := fun _ _ _ h => by cases h

theorem wraps_modify (f : World → World) : Wraps (modify f : SinkM PUnit) :=
  fun _ _ _ h => by cases h

theorem wraps_observe (x : SinkM α) : Wraps (observe x) := by
  intro w e w' h
  rw [observe] at h
  split at h <;> cases h

theorem wraps_throw (text : String) (cause : Error) :
    Wraps (throw (.context text cause) : SinkM α) := by
  intro w e w' h
  cases h
  exact ⟨text, cause, rfl⟩

theorem wraps_answerContext (r : Except String α) : Wraps (answerContext r text) := by
  intro w e w' h
  cases r with
  | ok a => cases h
  | error why =>
    cases h
    exact ⟨_, _, rfl⟩

theorem wraps_withContext (r : Except Error α) :
    Wraps (ofExcept (r.withContext text) : SinkM α) := by
  intro w e w' h
  cases r with
  | ok a => cases h
  | error cause =>
    cases h
    exact ⟨_, _, rfl⟩

end

theorem wraps_reload (reply : Reply) : Wraps (reload reply) :=
  wraps_get.bind fun _ => (wraps_answerContext reply).bind fun _ => wraps_set _

theorem wraps_commitTurn (ops : CommitOps) (files : List DataFile) (left attempt : Nat) :
    Wraps (commitTurn ops files left attempt) := by
  refine (wraps_observe _).bind fun r => ?_
  cases r with
  | ok table => exact (wraps_modify _).bind fun _ => wraps_pure true
  | error err =>
    dsimp only
    split
    · exact (wraps_throw _ err).bind fun _ => (wraps_reload _).bind fun _ => wraps_pure false
    · exact (wraps_pure _).bind fun _ => (wraps_reload _).bind fun _ => wraps_pure false

theorem wraps_commitLoop (ops : CommitOps) (files : List DataFile) (left attempt : Nat) :
    Wraps (commitLoop ops files left attempt) := by
  induction left generalizing attempt with
  | zero => exact (wraps_commitTurn _ _ _ _).bind fun _ => wraps_pure _
  | succ left ih =>
    refine (wraps_commitTurn _ _ _ _).bind fun done => ?_
    cases done with
    | true => exact wraps_pure _
    | false => exact ih (attempt + 1)

theorem wraps_commit (ops : CommitOps) (files : List DataFile) : Wraps (commit ops files) := by
  unfold commit
  split
  · exact wraps_pure _
  · exact wraps_get.bind fun _ => wraps_commitLoop _ _ _ _

theorem wraps_writeRecords (ops : CommitOps) (batch : RecordBatch) :
    Wraps (writeRecords ops batch) :=
  wraps_get.bind fun _ => (wraps_set _).bind fun _ => (wraps_answerContext _).bind fun _ =>
    wraps_pure _

theorem wraps_appendRecords (ops : CommitOps) (batch : RecordBatch) :
    Wraps (appendRecords ops batch) := by
  unfold appendRecords
  split
  · exact wraps_pure _
  · exact (wraps_get.bind fun _ => wraps_pure _).bind fun _ => (wraps_withContext _).bind fun _ =>
      (wraps_writeRecords _ _).bind fun _ => (wraps_commit _ _).bind fun _ => wraps_pure _

section
variable {schema : Schema} {items stream : Stream} {buffer batches rest : List RecordBatch}
  {batch b : RecordBatch} {w w' : World} {s : Buffered} {chunkRows : Nat} {e : Error}
  {chunks : List (List RecordBatch)} {chunk : List RecordBatch} {ops : Nat → CommitOps}
  {n rows : Nat} {r : EStateM.Result Error World Nat}

/-- **The buffer is never empty when it is flushed**, so `buffer[0]` is there. -/
theorem flush_not_panic (ops : CommitOps) (w : World) (hne : buffer ≠ [])
    (hb : ∀ b ∈ buffer, b.schema = schema) (text : String) (w' : World) :
    flush ops buffer w ≠ .error (.panic text) w' := by
  obtain ⟨c, -, -, -, he⟩ := flush_eq ops w hne hb
  rw [he]
  intro hp
  have hw : Wraps (do return (← appendRecords ops c).rows : SinkM Nat) :=
    (wraps_appendRecords ops c).bind fun _ => wraps_pure _
  obtain ⟨_, _, hx⟩ := hw _ _ _ hp
  cases hx

/-! ## One chunk -/

theorem Buffered.small_empty {chunks written : Nat} :
    Buffered.Small chunkRows ⟨[], 0, chunks, written⟩ := fun h => h

/-- A buffer that one more batch has filled. -/
theorem cutAt_snoc (hs : s.Wf schema) (hsmall : s.Small chunkRows)
    (hb : RecordBatch.tryNew schema batch.columns = .ok b)
    (hfull : chunkRows ≤ s.buffered + batch.numRows) : CutAt chunkRows (s.buffer ++ [b]) := by
  have hcount : s.buffered = (chunkRowsOf s.buffer).length := hs.count
  have hrows : batch.numRows = (chunkRowsOf [b]).length := by
    rw [numRows_of_tryNew hb, chunkRowsOf, List.flatMap_singleton]
  constructor
  · rw [chunkRowsOf_append, List.length_append]
    omega
  · intro h0
    rw [List.dropLast_concat, ← hcount]
    exact hsmall h0

/-- Streaming that stopped before it wrote anything. -/
theorem Chunked.stopped (he : ∀ text, e ≠ .panic text) :
    Chunked schema ops n chunkRows batches w (.error e w) [] where
  committed := .nil
  nonempty _ h := absurd h List.not_mem_nil
  whole := List.nil_prefix
  cut _ h := absurd h List.not_mem_nil
  ok h := by cases h
  no_panic text w' h := by
    cases h
    exact he text rfl

/-- A flush that returned is an append of the chunk that returned. -/
theorem flush_ok_append (h : Opened schema w) (hne : chunk ≠ [])
    (hb : ∀ b ∈ chunk, b.schema = schema) (hf : flush (ops n) chunk w = .ok rows w') :
    ∃ c stats, RecordBatch.concatBatches schema chunk = .ok c ∧
      appendRecords (ops n) c w = .ok stats w' ∧ OneSnapshot w.lake w'.lake (chunkRowsOf chunk) := by
  have ha := (flush_spec h (ops n) hne hb).1
  obtain ⟨c, hc, -, -, he⟩ := flush_eq (ops n) w hne hb
  rw [hf] at ha he
  obtain ⟨stats, w₁, hr, hp⟩ := bind_ok.1 he.symm
  cases hp
  exact ⟨c, stats, hc, hr, ha.ok rfl⟩

/-- A flush that failed is an append of the chunk that failed, committed or not. -/
theorem flush_error_append (h : Opened schema w) (hne : chunk ≠ [])
    (hb : ∀ b ∈ chunk, b.schema = schema) (hf : flush (ops n) chunk w = .error e w') :
    ∃ c, RecordBatch.concatBatches schema chunk = .ok c ∧
      appendRecords (ops n) c w = .error e w' ∧
      (w'.lake = w.lake ∨ OneSnapshot w.lake w'.lake (chunkRowsOf chunk)) := by
  have ha := (flush_spec h (ops n) hne hb).1
  obtain ⟨c, hc, -, -, he⟩ := flush_eq (ops n) w hne hb
  rw [hf] at ha he
  rcases bind_error.1 he.symm with hr | ⟨stats, w₁, -, hp⟩
  · exact ⟨c, hc, hr, ha.lake⟩
  · cases hp

/-- Streaming that failed in a chunk: it was committed, or not. -/
theorem Chunked.failed (h : Opened schema w) (hne : chunk ≠ [])
    (hb : ∀ b ∈ chunk, b.schema = schema) (hf : flush (ops n) chunk w = .error e w') :
    ∃ chunks, Chunked schema ops n chunkRows (chunk ++ rest) w (.error e w') chunks := by
  have hp : ∀ text w₁, (.error e w' : EStateM.Result Error World Nat) ≠ .error (.panic text) w₁ := by
    intro text w₁ hx
    cases hx
    exact flush_not_panic (ops n) w hne hb text w' hf
  obtain ⟨c, hc, hr, hl | hl⟩ := flush_error_append h hne hb hf
  · exact ⟨[], .failed hc hr hl, fun _ h => absurd h List.not_mem_nil, List.nil_prefix,
      fun _ h => absurd h List.not_mem_nil, fun h => (by cases h), hp⟩
  · refine ⟨[chunk], .lost hc hr hl, fun _ h => List.mem_singleton.1 h ▸ hne, ?_,
      fun _ h => absurd h List.not_mem_nil, fun h => (by cases h), hp⟩
    rw [List.flatten_singleton]
    exact List.prefix_append chunk rest

/-- Streaming that went on after a chunk. -/
theorem Chunked.after (h : Opened schema w) (hne : chunk ≠ [])
    (hb : ∀ b ∈ chunk, b.schema = schema) (hf : flush (ops n) chunk w = .ok rows w')
    (hcut : CutAt chunkRows chunk) (hrest : Chunked schema ops (n + 1) chunkRows rest w' r chunks) :
    Chunked schema ops n chunkRows (chunk ++ rest) w r (chunk :: chunks) where
  committed := by
    obtain ⟨c, stats, hc, hr, hone⟩ := flush_ok_append h hne hb hf
    exact .cons hc hr hone hrest.committed
  nonempty := List.forall_mem_cons.2 ⟨hne, hrest.nonempty⟩
  whole := by
    rw [List.flatten_cons]
    exact (List.prefix_append_right_inj chunk).2 hrest.whole
  cut c hc := by
    cases chunks with
    | nil => exact absurd hc List.not_mem_nil
    | cons c' cs =>
      rw [List.dropLast_cons_cons] at hc
      rcases List.mem_cons.1 hc with rfl | hc
      · exact hcut
      · exact hrest.cut c hc
  ok hok := by rw [List.flatten_cons, chunkRowsOf_append, chunkRowsOf_append, hrest.ok hok]
  no_panic := hrest.no_panic

/-! ## The loop -/

/-- The last chunk, which need not be full. -/
theorem streamFrom_nil_chunked (ops : StreamOps) (h : Opened schema w) (hs : s.Wf schema) :
    ∃ chunks, Chunked schema ops.chunks s.chunks chunkRows s.buffer w
      (streamFrom ops schema chunkRows [] s w) chunks := by
  rw [streamFrom]
  by_cases h0 : 0 < s.buffered
  · rw [if_pos h0]
    have hne := hs.ne_nil h0
    cases hf : flush (ops.chunks s.chunks) s.buffer w with
    | error e w' =>
      rw [bind_of_error hf, ← List.append_nil s.buffer]
      exact Chunked.failed h hne hs.schemas hf
    | ok rows w' =>
      obtain ⟨c, stats, hc, hr, hone⟩ := flush_ok_append h hne hs.schemas hf
      rw [bind_of_ok hf]
      refine ⟨[s.buffer], .cons hc hr hone .nil, fun _ h => List.mem_singleton.1 h ▸ hne, ?_,
        fun _ h => absurd h List.not_mem_nil, fun _ => ?_, fun _ _ h => by cases h⟩
      · exact (List.flatten_singleton (l := s.buffer)).symm ▸ List.prefix_refl _
      · rw [List.flatten_singleton]
  · rw [if_neg h0]
    refine ⟨[], .nil, fun _ h => absurd h List.not_mem_nil, List.nil_prefix,
      fun _ h => absurd h List.not_mem_nil, fun _ => ?_, fun _ _ h => by cases h⟩
    have hcount : s.buffered = (chunkRowsOf s.buffer).length := hs.count
    exact (List.length_eq_zero_iff.1 (by omega)).symm

/-- **The chunks of the loop**, from any point: what is buffered, then what it accepts. -/
theorem streamFrom_chunked (ops : StreamOps) (items : Stream) (h : Opened schema w)
    (hs : s.Wf schema) (hsmall : s.Small chunkRows) :
    ∃ chunks, Chunked schema ops.chunks s.chunks chunkRows (s.buffer ++ accepted schema items) w
      (streamFrom ops schema chunkRows items s w) chunks := by
  induction items generalizing s w with
  | nil =>
    rw [accepted_nil, List.append_nil]
    exact streamFrom_nil_chunked ops h hs
  | cons item items ih =>
    rw [streamFrom]
    cases item with
    | error why => exact ⟨[], .stopped fun _ he => by cases he⟩
    | ok batch =>
      rw [bind_of_ok answerContext_ok]
      cases hb : RecordBatch.tryNew schema batch.columns with
      | error e => exact ⟨[], .stopped fun _ he => by cases he⟩
      | ok b =>
        rw [Except.withContext_ok, bind_of_ok ofExcept_ok, accepted_cons hb]
        have hs' := hs.snoc s.chunks s.written hb
        by_cases hc : chunkRows ≤ s.buffered + batch.numRows
        · have hne : s.buffer ++ [b] ≠ [] := by simp
          have hsplit : s.buffer ++ b :: accepted schema items =
              (s.buffer ++ [b]) ++ accepted schema items := by simp
          rw [if_pos hc, hsplit]
          cases hf : flush (ops.chunks s.chunks) (s.buffer ++ [b]) w with
          | error e w' =>
            rw [bind_of_error hf]
            exact Chunked.failed h hne hs'.schemas hf
          | ok rows w' =>
            have ho := (flush_spec h (ops.chunks s.chunks) hne hs'.schemas).1.opened
            rw [hf] at ho
            rw [bind_of_ok hf]
            obtain ⟨chunks, hrest⟩ := ih (s := ⟨[], 0, s.chunks + 1, s.written + rows⟩) ho .empty
              Buffered.small_empty
            exact ⟨_, hrest.after h hne hs'.schemas hf (cutAt_snoc hs hsmall hb hc)⟩
        · rw [if_neg hc]
          have hsmall' : Buffered.Small chunkRows
              ⟨s.buffer ++ [b], s.buffered + batch.numRows, s.chunks, s.written⟩ :=
            fun _ => Nat.lt_of_not_le hc
          have hrest := ih h hs' hsmall'
          rwa [List.append_assoc] at hrest

/-- A stream that binds to its end is one of batches. -/
theorem exists_batches (h : Binds schema stream) :
    ∃ batches : List RecordBatch, stream = batches.map .ok := by
  induction stream with
  | nil => exact ⟨[], rfl⟩
  | cons item items ih =>
    obtain ⟨⟨batch, -, rfl, -⟩, hrest⟩ := List.forall_mem_cons.1 h
    obtain ⟨batches, rfl⟩ := ih hrest
    exact ⟨batch :: batches, rfl⟩

end

/-- **Exactly once, in order**: each chunk is one append and one snapshot; the chunks are made of the
query's batches, whole and from the front, each but the last cut as soon as it was full; on `Ok`
they have all of the query's rows, and their number is returned; and nothing panics. -/
theorem streamInto_exactly_once {schema : Schema} {w : World} (h : Opened schema w)
    (ops : StreamOps) (stream : Stream) (chunkRows : Nat) :
    ∃ chunks, Chunked schema ops.chunks 0 chunkRows (accepted schema stream) w
        (streamInto ops stream chunkRows w) chunks ∧
      ∀ n w', streamInto ops stream chunkRows w = .ok n w' →
        ∃ batches : List RecordBatch, stream = batches.map .ok ∧
          chunkRowsOf chunks.flatten = batches.flatMap (boundRows schema) ∧
          n = (batches.flatMap (boundRows schema)).length := by
  have hchunks : ∃ chunks, Chunked schema ops.chunks 0 chunkRows (accepted schema stream) w
      (streamInto ops stream chunkRows w) chunks := by
    rw [streamInto, bind_of_ok (arrowSchema_ok h)]
    cases hp : ops.plan with
    | error why => exact ⟨[], .stopped fun _ he => by cases he⟩
    | ok u =>
      rw [bind_of_ok answerContext_ok]
      cases hst : ops.start with
      | error why => exact ⟨[], .stopped fun _ he => by cases he⟩
      | ok u =>
        rw [bind_of_ok answerContext_ok]
        exact streamFrom_chunked (s := .empty) ops stream h .empty Buffered.small_empty
  obtain ⟨chunks, hc⟩ := hchunks
  refine ⟨chunks, hc, fun n w' hr => ?_⟩
  obtain ⟨hb, -, hn⟩ := (streamInto_spec h ops stream chunkRows).ok n w' hr
  obtain ⟨batches, rfl⟩ := exists_batches hb
  have hall := accepted_of_binds hb
  refine ⟨batches, rfl, ?_, ?_⟩
  · rw [hc.ok (by rw [hr]; rfl)]
    exact hall
  · rw [hn, hall, Nat.zero_add]

/-- Two batches, an empty one between them. -/
def emptyBetween : Stream :=
  [.ok (outputBatch [.ofEvent (btcTrade 1 1000)]), .ok (outputBatch []),
    .ok (outputBatch [.ofEvent (btcTrade 2 2000)])]

/-- With a chunk size of 0 each batch is a chunk, and the empty one makes no snapshot. -/
theorem streamInto_exactly_once_between :
    (∃ chunks, Chunked schema (fun _ => .allOk) 0 0 (accepted schema emptyBetween)
      (connect "trades.trades" ⟨5⟩ .created)
      (streamInto .allOk emptyBetween 0 (connect "trades.trades" ⟨5⟩ .created)) chunks) ∧
    (final (streamInto .allOk emptyBetween 0
      (connect "trades.trades" ⟨5⟩ .created))).lake.table.snapshots = 2 := by
  obtain ⟨chunks, h, -⟩ := streamInto_exactly_once
    (opened_connect "trades.trades" ⟨5⟩ (rfl : Lake.created.table.schema = schema)) .allOk
    emptyBetween 0
  exact ⟨⟨chunks, h⟩, by decide +kernel⟩

end Query
