import CryptoLakehouse.Sink.Proof.WriteBatch

/-!
# Appending record batches

`appendRecords` binds a batch to the table's schema by position, so what it writes are the batch's
rows *read under the destination's names* (`boundRows`). `appendRecords_spec`: it appends them at
most once, as one snapshot (`OneSnapshot`), and exactly once when it returns `Ok`.
-/

namespace Sink

open Arrow Trades Fallible

/-- The rows of a batch as the destination reads them. -/
def boundRows (schema : Schema) (batch : RecordBatch) : List TradeRow :=
  batch.rows.map (TradeRow.read schema)

/-- The table of `l'` is that of `l` and files with the rows `added`. -/
def Grown (l l' : Lake) (added : List TradeRow) : Prop :=
  ∃ files, l'.table.files = l.table.files ++ files ∧ (files.flatMap (·.rows)).Perm added

/-- `l'` is `l` with one more snapshot, which has the rows `added`; without rows there is none. -/
def OneSnapshot (l l' : Lake) (added : List TradeRow) : Prop :=
  added = [] ∧ l' = l ∨
    added ≠ [] ∧ ∃ files, l' = l.append files ∧ (files.flatMap (·.rows)).Perm added

/-- What an append of `rows` has done when it ends as `r`. -/
structure Appended {α : Type} (schema : Schema) (rows : List TradeRow) (w : World)
    (r : EStateM.Result Error World α) : Prop where
  opened : Opened schema (final r)
  uuid : (final r).sink.fileNameGen.uuid = w.sink.fileNameGen.uuid
  lake : (final r).lake = w.lake ∨ OneSnapshot w.lake (final r).lake rows
  ok : succeeded r = true → OneSnapshot w.lake (final r).lake rows

section
variable {ops : CommitOps} {batch b : RecordBatch} {w : World} {schema : Schema}

theorem boundRows_self : boundRows batch.schema batch = trades batch := rfl

theorem trades_of_tryNew (h : RecordBatch.tryNew schema batch.columns = .ok b) :
    trades b = boundRows schema batch := by
  obtain ⟨-, -, hs, hr⟩ := RecordBatch.tryNew_eq_ok.1 h
  rw [trades, hs, hr]
  rfl

theorem grown_nil {l : Lake} : Grown l l [] := ⟨[], (List.append_nil _).symm, .nil⟩

theorem Grown.rows {l l' : Lake} {added : List TradeRow} (h : Grown l l' added) :
    l'.rows.Perm (l.rows ++ added) := by
  obtain ⟨files, hf, hp⟩ := h
  rw [Lake.rows, Table.rows, hf, List.flatMap_append]
  exact hp.append_left _

theorem Grown.trans {l l' l'' : Lake} {added added' : List TradeRow} (h : Grown l l' added)
    (h' : Grown l' l'' added') : Grown l l'' (added ++ added') := by
  obtain ⟨files, hf, hp⟩ := h
  obtain ⟨files', hf', hp'⟩ := h'
  refine ⟨files ++ files', by rw [hf', hf, List.append_assoc], ?_⟩
  rw [List.flatMap_append]
  exact hp.append hp'

theorem OneSnapshot.grown {l l' : Lake} {added : List TradeRow} (h : OneSnapshot l l' added) :
    Grown l l' added := by
  obtain ⟨rfl, rfl⟩ | ⟨-, files, rfl, hp⟩ := h
  · exact grown_nil
  · exact ⟨files, rfl, hp⟩

theorem oneSnapshot_nil {l : Lake} : OneSnapshot l l [] := .inl ⟨rfl, rfl⟩

/-- Nothing happened. -/
theorem Appended.nothing {α : Type} {r : EStateM.Result Error World α} {rows : List TradeRow}
    (h : Opened schema w) (hr : final r = w) (hok : succeeded r = true → rows = []) :
    Appended schema rows w r := by
  refine ⟨hr ▸ h, by rw [hr], .inl (hr ▸ rfl), fun hs => ?_⟩
  rw [hok hs, hr]
  exact oneSnapshot_nil

/-- Committing the files of a batch. -/
theorem commit_appended (ops : CommitOps) (b : RecordBatch) (h : Opened schema w) :
    Appended schema (trades b) w
      (commit ops (w.filesOf ops b) (w.advance (w.filesOf ops b).length)) := by
  by_cases hfe : w.filesOf ops b = []
  · have hperm : ((w.filesOf ops b).flatMap (·.rows)).Perm (trades b) := filesOf_rows
    rw [hfe] at hperm
    have hnil : trades b = [] := List.perm_nil.1 hperm.symm
    rw [hfe, commit_nil, hnil]
    exact ⟨h.advance, rfl, .inl rfl, fun _ => oneSnapshot_nil⟩
  · have hc := commit_spec ops (w.advance (w.filesOf ops b).length) hfe
    have hne : trades b ≠ [] := fun hnil => hfe (filesOf_eq_nil.2 hnil)
    have happ : OneSnapshot w.lake (w.lake.append (w.filesOf ops b)) (trades b) :=
      .inr ⟨hne, w.filesOf ops b, rfl, filesOf_rows⟩
    refine ⟨h.advance.commits h.named hc, by rw [hc.sink]; rfl, ?_, fun hok => ?_⟩
    · rcases hc.lake with hl | ⟨-, hl⟩
      · exact .inl hl
      · exact .inr (by rw [hl]; exact happ)
    · rw [hc.ok hok]
      exact happ

theorem appendRecords_empty (h : batch.numRows = 0) :
    appendRecords ops batch w = .ok ⟨0, 0, 0, 0⟩ w := by
  rw [appendRecords, if_pos h]
  rfl

/-- A batch that does not bind is refused. -/
theorem appendRecords_refused (ops : CommitOps) (h : Opened schema w) (hne : batch.numRows ≠ 0)
    (hn : ∀ b, RecordBatch.tryNew schema batch.columns ≠ .ok b) :
    ∃ e, appendRecords ops batch w = .error e w := by
  rw [appendRecords, if_neg hne, bind_of_ok (arrowSchema_ok h)]
  cases ht : RecordBatch.tryNew schema batch.columns with
  | ok b => exact absurd ht (hn b)
  | error e => exact ⟨_, bind_of_error rfl⟩

/-- Once its files are written, an append is its commit. -/
theorem appendRecords_of_files (h : Opened schema w) (hne : batch.numRows ≠ 0)
    (ht : RecordBatch.tryNew schema batch.columns = .ok b) (hw : ops.writeRecords = .ok ()) :
    final (appendRecords ops batch w) =
        final (commit ops (w.filesOf ops b) (w.advance (w.filesOf ops b).length)) ∧
      succeeded (appendRecords ops batch w) =
        succeeded (commit ops (w.filesOf ops b) (w.advance (w.filesOf ops b).length)) := by
  rw [appendRecords, if_neg hne, bind_of_ok (arrowSchema_ok h), ht, Except.withContext_ok,
    bind_of_ok ofExcept_ok, bind_of_ok (writeRecords_ok hw)]
  cases hc : commit ops (w.filesOf ops b) (w.advance (w.filesOf ops b).length) with
  | ok u w₂ => rw [bind_of_ok hc]; exact ⟨rfl, rfl⟩
  | error e w₂ => rw [bind_of_error hc]; exact ⟨rfl, rfl⟩

theorem appendRecords_orphans (h : Opened schema w) (hne : batch.numRows ≠ 0)
    (ht : RecordBatch.tryNew schema batch.columns = .ok b) {why : String}
    (hw : ops.writeRecords = .error why) :
    ∃ e, appendRecords ops batch w = .error e (w.advance (w.filesOf ops b).length) := by
  obtain ⟨e, he⟩ := writeRecords_error b w hw
  rw [appendRecords, if_neg hne, bind_of_ok (arrowSchema_ok h), ht, Except.withContext_ok,
    bind_of_ok ofExcept_ok, bind_of_error he]
  exact ⟨e, rfl⟩

/-- **An append** of a batch writes its bound rows at most once, and exactly once when it
succeeds. -/
theorem appendRecords_spec (h : Opened schema w) (ops : CommitOps) (batch : RecordBatch) :
    Appended schema (boundRows schema batch) w (appendRecords ops batch w) := by
  by_cases hne : batch.numRows = 0
  · rw [appendRecords_empty hne]
    refine .nothing h rfl fun _ => ?_
    rw [boundRows, List.length_eq_zero_iff.1 hne]
    rfl
  by_cases ht : ∃ b, RecordBatch.tryNew schema batch.columns = .ok b
  · obtain ⟨b, ht⟩ := ht
    rw [← trades_of_tryNew ht]
    cases hw : ops.writeRecords with
    | error why =>
      obtain ⟨e, he⟩ := appendRecords_orphans h hne ht hw
      rw [he]
      exact ⟨h.advance, rfl, .inl rfl, nofun⟩
    | ok u =>
      obtain ⟨hf, hs⟩ := appendRecords_of_files h hne ht hw
      have hc := commit_appended ops b h
      exact ⟨hf ▸ hc.opened, hf ▸ hc.uuid, hf ▸ hc.lake, fun hok => hf ▸ hc.ok (hs ▸ hok)⟩
  · obtain ⟨e, he⟩ := appendRecords_refused ops h hne fun b hb => ht ⟨b, hb⟩
    rw [he]
    exact .nothing h rfl nofun

/-- A non-empty batch that was appended was bound. -/
theorem appendRecords_bound (h : Opened schema w) (hne : batch.numRows ≠ 0)
    (hok : succeeded (appendRecords ops batch w) = true) :
    ∃ b, RecordBatch.tryNew schema batch.columns = .ok b := by
  by_contra hn
  obtain ⟨e, he⟩ := appendRecords_refused ops h hne fun b hb => hn ⟨b, hb⟩
  rw [he] at hok
  exact Bool.false_ne_true hok

/-- With nothing failing, a batch that binds is appended. -/
theorem appendRecords_ok (h : Opened schema w)
    (ht : RecordBatch.tryNew schema batch.columns = .ok b) (hw : ops.writeRecords = .ok ())
    (hc : ops.commits 1 = .applied) : succeeded (appendRecords ops batch w) = true := by
  by_cases hne : batch.numRows = 0
  · rw [appendRecords_empty hne]
    rfl
  rw [(appendRecords_of_files h hne ht hw).2]
  by_cases hfe : w.filesOf ops b = []
  · rw [hfe, commit_nil]
    rfl
  · obtain ⟨w', hw'⟩ := commit_ok hfe h.named.unreferenced hc
    rw [hw']
    rfl

/-- The rows an append reports are the batch's. -/
theorem appendRecords_rows {stats : AppendStats} {w' : World}
    (h : appendRecords ops batch w = .ok stats w') : stats.rows = batch.numRows := by
  by_cases hne : batch.numRows = 0
  · rw [appendRecords_empty hne] at h
    cases h
    exact hne.symm
  · rw [appendRecords, if_neg hne] at h
    obtain ⟨s, w₁, -, h⟩ := bind_ok.1 h
    obtain ⟨b, w₂, -, h⟩ := bind_ok.1 h
    obtain ⟨files, w₃, -, h⟩ := bind_ok.1 h
    obtain ⟨u, w₄, -, h⟩ := bind_ok.1 h
    cases h
    rfl

end

end Sink
