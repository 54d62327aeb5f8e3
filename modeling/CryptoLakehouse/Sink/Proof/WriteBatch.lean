import CryptoLakehouse.Sink.Proof.Commit
import CryptoLakehouse.Sink.Proof.Dedup

/-!
# Writing a micro-batch

`Opened schema w` is the invariant of a connected sink: both views of the table have the schema,
the session knows `icetbl` and at most a left-behind `incoming`, and no file of the table has one
of the names the sink hands out next.

* `opened_connect`, `writeFiles_spec`, `writeBatch_spec` — it holds of a new sink and is kept by
  every write, whatever fails.
* `writeBatch_spec` — a write appends `dedupRows` of its rows at most once, and exactly once when
  it returns `Ok`.
-/

namespace Sink

open Arrow Trades Fallible

/-- The invariant of a connected sink (module doc). -/
structure Opened (schema : Schema) (w : World) : Prop where
  sinkSchema : w.sink.table.schema = schema
  lakeSchema : w.lake.table.schema = schema
  session : w.sink.ctx = .idle ∨ ∃ batch, w.sink.ctx = .busy batch
  uuid : w.sink.fileNameGen.uuid < w.lake.uuids
  fresh : ∀ f ∈ w.lake.table.files, f.path.uuid = w.sink.fileNameGen.uuid →
    f.path.count < w.sink.fileNameGen.next

/-- The next `n` file names have been handed out. -/
def World.advance (w : World) (n : Nat) : World :=
  { w with sink := { w.sink with
      fileNameGen := ⟨w.sink.fileNameGen.uuid, w.sink.fileNameGen.next + n⟩ } }

section
variable {schema : Schema} {w : World} {n : Nat}

@[simp] theorem advance_lake : (w.advance n).lake = w.lake := rfl

theorem opened_connect (ident : String) (cfg : IcebergConfig) {lake : Lake}
    (h : lake.table.schema = schema) : Opened schema (connect ident cfg lake) where
  sinkSchema := h
  lakeSchema := h
  session := .inl rfl
  uuid := Nat.lt_succ_self _
  fresh f hf he := absurd he (Nat.ne_of_lt (lake.named f hf))

theorem Opened.withCtx {c : Session} (h : Opened schema w)
    (hc : c = .idle ∨ ∃ batch, c = .busy batch) :
    Opened schema (w.withCtx c) := ⟨h.sinkSchema, h.lakeSchema, hc, h.uuid, h.fresh⟩

theorem Opened.advance (h : Opened schema w) : Opened schema (w.advance n) where
  sinkSchema := h.sinkSchema
  lakeSchema := h.lakeSchema
  session := h.session
  uuid := h.uuid
  fresh f hf he := Nat.lt_of_lt_of_le (h.fresh f hf he) (Nat.le_add_right _ _)

/-- Another writer's files have other names. -/
theorem Opened.foreign {files : List DataFile} (h : Opened schema w)
    (hf : ∀ f ∈ files, f.path.uuid ≠ w.sink.fileNameGen.uuid) :
    Opened schema { w with lake := w.lake.append files } where
  sinkSchema := h.sinkSchema
  lakeSchema := h.lakeSchema
  session := h.session
  uuid := Nat.lt_of_lt_of_le h.uuid (le_uuidBound _ _)
  fresh f hm he := by
    rcases List.mem_append.1 hm with hm | hm
    · exact h.fresh f hm he
    · exact absurd he (hf f hm)

end

/-! ## Files -/

/-- The files of one write: names from the sink's own supply, used up and not yet committed. -/
structure Named (w : World) (files : List DataFile) : Prop where
  uuid : ∀ f ∈ files, f.path.uuid = w.sink.fileNameGen.uuid
  count : ∀ f ∈ files, f.path.count < w.sink.fileNameGen.next
  unreferenced : Unreferenced w.lake files

section
variable {ops : CommitOps} {files : List DataFile} {w w' : World} {batch : RecordBatch}
  {schema : Schema}

theorem mem_nameFiles {gen : FileNameGen} {parts : List (Partition × List TradeRow × Nat)}
    {f : DataFile} (h : f ∈ nameFiles gen parts) :
    f.path.uuid = gen.uuid ∧ gen.next ≤ f.path.count ∧ f.path.count < gen.next + parts.length := by
  obtain ⟨i, hi, rfl⟩ := List.mem_mapIdx.1 h
  exact ⟨rfl, Nat.le_add_right _ _, Nat.add_lt_add_left hi _⟩

@[simp] theorem length_nameFiles {gen : FileNameGen}
    {parts : List (Partition × List TradeRow × Nat)} :
    (nameFiles gen parts).length = parts.length := by simp [nameFiles]

theorem nameFiles_rows (gen : FileNameGen) (parts : List (Partition × List TradeRow × Nat)) :
    (nameFiles gen parts).flatMap (·.rows) = parts.flatMap fun p => p.2.1 := by
  have h : (nameFiles gen parts).map (·.rows) = parts.map fun p => p.2.1 := by
    refine List.ext_getElem (by simp) fun i _ _ => ?_
    simp [nameFiles]
  rw [List.flatMap_def, List.flatMap_def, h]

/-- The files `write_records` writes for a batch. -/
def World.filesOf (w : World) (ops : CommitOps) (batch : RecordBatch) : List DataFile :=
  nameFiles w.sink.fileNameGen (ops.writer.split (trades batch))

theorem filesOf_rows : ((w.filesOf ops batch).flatMap (·.rows)).Perm (trades batch) := by
  rw [World.filesOf, nameFiles_rows]
  exact ops.writer.perm _

/-- Rows are written to files, and only rows are. -/
theorem split_eq_nil {writer : PartitionWriter} {rows : List TradeRow} :
    writer.split rows = [] ↔ rows = [] := by
  have hp := writer.perm rows
  refine ⟨fun h => ?_, fun h => ?_⟩
  · rw [h] at hp
    exact List.nil_perm.1 hp
  · rw [h, List.perm_nil, List.flatMap_eq_nil_iff] at hp
    refine List.eq_nil_iff_forall_not_mem.2 fun p hm => ?_
    rw [h] at hm
    exact writer.ne_nil [] p hm (hp p hm)

theorem filesOf_eq_nil : w.filesOf ops batch = [] ↔ trades batch = [] := by
  rw [← List.length_eq_zero_iff, World.filesOf, length_nameFiles, List.length_eq_zero_iff,
    split_eq_nil]

theorem writeRecords_ok (h : ops.writeRecords = .ok ()) : writeRecords ops batch w =
    .ok (w.filesOf ops batch) (w.advance (w.filesOf ops batch).length) := by
  simp only [writeRecords, bind_apply, get_apply, set_apply, h, answerContext]
  rfl

theorem writeRecords_error (batch : RecordBatch) (w : World) {why : String}
    (h : ops.writeRecords = .error why) :
    ∃ e, writeRecords ops batch w = .error e (w.advance (w.filesOf ops batch).length) := by
  simp only [writeRecords, bind_apply, get_apply, set_apply, h, answerContext]
  exact ⟨_, rfl⟩

theorem Opened.named (h : Opened schema w) :
    Named (w.advance (w.filesOf ops batch).length) (w.filesOf ops batch) where
  uuid f hf := (mem_nameFiles hf).1
  count f hf := by
    have := (mem_nameFiles hf).2.2
    simpa [World.advance, World.filesOf] using this
  unreferenced f hf g hg he := by
    obtain ⟨hu, hc, -⟩ := mem_nameFiles hf
    have := h.fresh g hg (by rw [he, hu])
    rw [he] at this
    omega

/-- A turn with files of the sink's own keeps the invariant. -/
theorem Opened.turn (h : Opened schema w)
    (hn : ∀ f ∈ files, f.path.count < w.sink.fileNameGen.next) (ht : Turn files w w') :
    Opened schema w' := by
  have hs := ht.sink
  have hl : w'.lake.table.schema = w.lake.table.schema := by
    rcases ht.lake with h | ⟨-, h⟩ <;> simp [h]
  refine ⟨?_, hl.trans h.lakeSchema, by rw [hs]; exact h.session, ?_, fun f hf he => ?_⟩
  · rw [ht.schema (h.sinkSchema.trans h.lakeSchema.symm), hl, h.lakeSchema]
  · rw [hs]
    rcases ht.lake with hl | ⟨-, hl⟩ <;> rw [hl]
    · exact h.uuid
    · exact Nat.lt_of_lt_of_le h.uuid (le_uuidBound _ _)
  · rw [hs] at he ⊢
    rcases ht.lake with hl | ⟨-, hl⟩ <;> rw [hl] at hf
    · exact h.fresh f hf he
    · rcases List.mem_append.1 hf with hf | hf
      · exact h.fresh f hf he
      · exact hn f hf

/-- Committing named files keeps the invariant. -/
theorem Opened.commits {r : EStateM.Result Error World Unit} (h : Opened schema w) (hn : Named w files)
    (hr : Commits files w.lake w r) : Opened schema (final r) :=
  h.turn hn.count hr.toTurn

end

/-! ## Writing the files of a micro-batch -/

theorem schemas_singleton {out : RecordBatch} {schema : Schema} (h : out.schema = schema) :
    ∀ b ∈ [out], b.schema = schema := fun _ hb => List.mem_singleton.1 hb ▸ h

section
variable {ops : WriteOps} {rows : List TradeEvent} {w : World}

/-- The rows of a micro-batch that the table does not hold in the batch's brackets. -/
def World.newRows (w : World) (rows : List TradeEvent) : List TradeRow :=
  dedupRows w.lake.rows (rows.map .ofEvent)

theorem arrowSchema_ok {schema : Schema} (h : Opened schema w) : arrowSchema w = .ok schema w := by
  rw [← h.sinkSchema]
  rfl

/-- With nothing failing up to the commit: the new rows, in files with names of the sink. -/
theorem writeFiles_ok (rows : List TradeEvent) (h : Opened Trades.schema w)
    (hw : w.sink.ctx = .idle) (hp : ops.ProbeOk) (hr : ops.writeRecords = .ok ()) : ∃ files probe,
      writeFiles ops rows w = .ok (files, probe) (w.advance files.length) ∧
      Named (w.advance files.length) files ∧
      (files.flatMap (·.rows)).Perm (w.newRows rows) ∧ (files = [] ↔ w.newRows rows = []) := by
  obtain ⟨batch, hb, hs, ht⟩ := toRecordBatch_schema rows
  obtain ⟨out, probe, hd, hos, hot⟩ := dedupedBatch_ok hs hw hp
  obtain ⟨b, hc, hbs, hbr⟩ := RecordBatch.concatBatches_eq_ok (schemas_singleton hos)
  have htb : trades b = w.newRows rows := by
    rw [World.newRows, ← ht, ← hot, trades, trades, hbs, hos, hbr]
    simp
  refine ⟨w.filesOf ops.toCommitOps b, probe, ?_, h.named, htb ▸ filesOf_rows,
    htb ▸ filesOf_eq_nil⟩
  rw [writeFiles, bind_of_ok (arrowSchema_ok h), hb, bind_of_ok ofExcept_ok, bind_of_ok hd]
  dsimp only
  rw [hc, bind_of_ok ofExcept_ok, bind_of_ok (writeRecords_ok hr)]
  rfl

/-- A failing write leaves orphans. -/
theorem writeFiles_orphans (rows : List TradeEvent) (h : Opened Trades.schema w)
    (hw : w.sink.ctx = .idle) (hp : ops.ProbeOk) {why : String} (hr : ops.writeRecords = .error why) :
    ∃ e n, writeFiles ops rows w = .error e (w.advance n) := by
  obtain ⟨batch, hb, hs, -⟩ := toRecordBatch_schema rows
  obtain ⟨out, probe, hd, hos, -⟩ := dedupedBatch_ok hs hw hp
  obtain ⟨b, hc, -⟩ := RecordBatch.concatBatches_eq_ok (schemas_singleton hos)
  obtain ⟨e, he⟩ := writeRecords_error b w hr
  refine ⟨e, (w.filesOf ops.toCommitOps b).length, ?_⟩
  rw [writeFiles, bind_of_ok (arrowSchema_ok h), hb, bind_of_ok ofExcept_ok, bind_of_ok hd]
  dsimp only
  rw [hc, bind_of_ok ofExcept_ok, bind_of_error he]

/-- A failing probe leaves `incoming` registered. -/
theorem writeFiles_failed (rows : List TradeEvent) (h : Opened Trades.schema w)
    (hw : w.sink.ctx = .idle) (hp : ¬ops.ProbeOk) :
    ∃ e batch, writeFiles ops rows w = .error e (w.withCtx (.busy batch)) := by
  obtain ⟨batch, hb, hs, -⟩ := toRecordBatch_schema rows
  obtain ⟨e, he⟩ := dedupedBatch_failed hs hw hp
  refine ⟨e, batch, ?_⟩
  rw [writeFiles, bind_of_ok (arrowSchema_ok h), hb, bind_of_ok ofExcept_ok, bind_of_error he]

/-- With `incoming` still registered every write fails. -/
theorem writeFiles_taken (ops : WriteOps) (rows : List TradeEvent) (h : Opened Trades.schema w)
    {batch : RecordBatch} (hw : w.sink.ctx = .busy batch) :
    ∃ e, writeFiles ops rows w = .error e w := by
  obtain ⟨b, hb, -⟩ := toRecordBatch_schema rows
  obtain ⟨e, he⟩ := dedupedBatch_taken ops b Trades.schema (w := w)
    (by simp [hw, Session.names, Session.busy])
  refine ⟨e, ?_⟩
  rw [writeFiles, bind_of_ok (arrowSchema_ok h), hb, bind_of_ok ofExcept_ok, bind_of_error he]

/-- **Writing the files**: the new rows in named files, or an error; never a change of the table. -/
theorem writeFiles_spec (h : Opened Trades.schema w) (ops : WriteOps) (rows : List TradeEvent) :
    (∃ files probe, writeFiles ops rows w = .ok (files, probe) (w.advance files.length) ∧
      Named (w.advance files.length) files ∧ (files.flatMap (·.rows)).Perm (w.newRows rows)) ∨
    (∃ e w', writeFiles ops rows w = .error e w' ∧ Opened Trades.schema w' ∧ w'.lake = w.lake ∧
      w'.sink.fileNameGen.uuid = w.sink.fileNameGen.uuid) := by
  rcases h.session with hw | ⟨batch, hw⟩
  · by_cases hp : ops.ProbeOk
    · cases hr : ops.writeRecords with
      | ok u =>
        obtain ⟨files, probe, hf, hn, hperm, -⟩ := writeFiles_ok rows h hw hp hr
        exact .inl ⟨files, probe, hf, hn, hperm⟩
      | error why =>
        obtain ⟨e, n, he⟩ := writeFiles_orphans rows h hw hp hr
        exact .inr ⟨e, _, he, h.advance, rfl, rfl⟩
    · obtain ⟨e, batch, he⟩ := writeFiles_failed rows h hw hp
      exact .inr ⟨e, _, he, h.withCtx (.inr ⟨batch, rfl⟩), rfl, rfl⟩
  · obtain ⟨e, he⟩ := writeFiles_taken ops rows h hw
    exact .inr ⟨e, w, he, h, rfl, rfl⟩

end

/-! ## Writing a micro-batch -/

/-- What a `write_batch` of `rows` has done when it ends as `r`. -/
structure Wrote (rows : List TradeEvent) (w : World)
    (r : EStateM.Result Error World WriteStats) : Prop where
  opened : Opened Trades.schema (final r)
  uuid : (final r).sink.fileNameGen.uuid = w.sink.fileNameGen.uuid
  lake : (final r).lake.rows = w.lake.rows ∨
    (final r).lake.rows.Perm (w.lake.rows ++ w.newRows rows)
  ok : succeeded r = true → (final r).lake.rows.Perm (w.lake.rows ++ w.newRows rows)

section
variable {ops : WriteOps} {rows : List TradeEvent} {w : World}

theorem newRows_nil : w.newRows [] = [] := rfl

theorem writeBatch_nil : writeBatch ops [] w = .ok ⟨0, 0, 0, 0, ⟨0, 0, 0, 0⟩⟩ w := rfl

/-- Once its files are written, a write is its commit. -/
theorem writeBatch_of_files (hne : rows ≠ []) {files : List DataFile} {probe : ProbeStats}
    {w₁ : World} (h : writeFiles ops rows w = .ok (files, probe) w₁) :
    final (writeBatch ops rows w) = final (commit ops.toCommitOps files w₁) ∧
      succeeded (writeBatch ops rows w) = succeeded (commit ops.toCommitOps files w₁) := by
  have : ¬rows.isEmpty = true := by simpa using hne
  rw [writeBatch, if_neg this, bind_of_ok h]
  dsimp only
  cases hc : commit ops.toCommitOps files w₁ with
  | ok u w₂ => rw [bind_of_ok hc]; exact ⟨rfl, rfl⟩
  | error e w₂ => rw [bind_of_error hc]; exact ⟨rfl, rfl⟩

theorem writeBatch_of_error (hne : rows ≠ []) {e : Error} {w₁ : World}
    (h : writeFiles ops rows w = .error e w₁) : writeBatch ops rows w = .error e w₁ := by
  have : ¬rows.isEmpty = true := by simpa using hne
  rw [writeBatch, if_neg this, bind_of_error h]

/-- **A write** appends the new rows at most once, and exactly once when it succeeds. -/
theorem writeBatch_spec (h : Opened Trades.schema w) (ops : WriteOps) (rows : List TradeEvent) :
    Wrote rows w (writeBatch ops rows w) := by
  by_cases hne : rows = []
  · subst hne
    exact ⟨h, rfl, .inl rfl, fun _ => by simp [newRows_nil, writeBatch_nil]⟩
  rcases writeFiles_spec h ops rows with ⟨files, probe, hf, hn, hperm⟩ | ⟨e, w', hf, ho, hl, hg⟩
  · obtain ⟨hfin, hsucc⟩ := writeBatch_of_files hne hf
    by_cases hfe : files = []
    -- Every row was stored already: nothing is committed.
    · subst hfe
      have hnew : w.newRows rows = [] := List.perm_nil.1 hperm.symm
      have hw : final (writeBatch ops rows w) = w.advance 0 := hfin
      exact ⟨by rw [hw]; exact h.advance, by rw [hw]; rfl, .inl (by rw [hw]; rfl),
        fun _ => by rw [hw, hnew]; simp⟩
    · have hc := commit_spec ops.toCommitOps (w.advance files.length) hfe
      have happ : ((w.advance files.length).lake.append files).rows.Perm
          (w.lake.rows ++ w.newRows rows) := by
        rw [append_rows]
        exact hperm.append_left _
      refine ⟨by rw [hfin]; exact h.advance.commits hn hc, ?_, ?_, fun hok => ?_⟩
      · rw [hfin, hc.sink]
        rfl
      · rcases hc.lake with hl | ⟨-, hl⟩
        · exact .inl (by rw [hfin, hl]; rfl)
        · exact .inr (by rw [hfin, hl]; exact happ)
      · rw [hfin, hc.ok (hsucc ▸ hok)]
        exact happ
  · rw [writeBatch_of_error hne hf]
    exact ⟨ho, hg, .inl (by rw [final_error, hl]), nofun⟩

/-- Every key of a written batch is stored. -/
theorem Wrote.mem_keys {r : EStateM.Result Error World WriteStats} (h : Wrote rows w r)
    (hok : succeeded r = true) {e : TradeEvent} (he : e ∈ rows) :
    e.key ∈ Keyed.keys TradeRow.key (final r).lake.rows := by
  rw [(Keyed.keys_perm (h.ok hok)).mem_iff]
  exact mem_keys_append_dedupRows (Keyed.mem_keys_of_mem (List.mem_map_of_mem he) rfl)

/-- No stored row is lost. -/
theorem Wrote.mem_rows {r : EStateM.Result Error World WriteStats} (h : Wrote rows w r)
    {x : TradeRow} (hx : x ∈ w.lake.rows) : x ∈ (final r).lake.rows := by
  rcases h.lake with hl | hl
  · rwa [hl]
  · exact hl.mem_iff.2 (List.mem_append_left _ hx)

end

end Sink
