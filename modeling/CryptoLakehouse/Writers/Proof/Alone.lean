import CryptoLakehouse.Query.Proof.Backfill
import CryptoLakehouse.Writers.Proof.Ready

/-!
# Each writer alone

The steps of a writer, taken one after the other, are its program: `probe` and turns are `writeBatch`
(`batcher_alone`), and `start`, chunks and turns are the appends of `crypto-backfill --execute`
(`backfill_alone`).
-/

namespace Writers

open Arrow Trades Sink Query Fallible

section
variable {s : State} {p : Pending} {b : Backfilling}

/-- A turn by the program's operations. -/
theorem turn_eq (ops : CommitOps) (p : Pending) :
    p.turn (ops.commits p.attempt) (ops.reloads p.attempt) =
      commitTurn ops p.files p.left p.attempt := rfl

/-- The loop goes on from its next turn, or is over. -/
theorem commitLoop_next (ops : CommitOps) (p : Pending) (w : World) :
    (p.next (commitTurn ops p.files p.left p.attempt w) = none ∧
      final (commitLoop ops p.files p.left p.attempt w) =
        final (commitTurn ops p.files p.left p.attempt w) ∧
      succeeded (commitLoop ops p.files p.left p.attempt w) =
        succeeded (commitTurn ops p.files p.left p.attempt w)) ∨
    ∃ left w', p.left = left + 1 ∧ commitTurn ops p.files p.left p.attempt w = .ok false w' ∧
      commitLoop ops p.files p.left p.attempt w =
        commitLoop ops p.files left (p.attempt + 1) w' := by
  obtain ⟨files, left, attempt⟩ := p
  have hlast := (commitTurn_turn ops files left attempt w).2.2
  cases hc : commitTurn ops files left attempt w with
  | error e w' => exact .inl ⟨rfl, by rw [commitLoop_of_error hc]; exact ⟨rfl, rfl⟩⟩
  | ok done w' =>
    cases done with
    | true => exact .inl ⟨rfl, by rw [commitLoop_of_done hc]; exact ⟨rfl, rfl⟩⟩
    | false =>
      cases left with
      | zero => exact absurd hc (hlast rfl w')
      | succ left => exact .inr ⟨left, w', rfl, rfl, commitLoop_of_again hc⟩

/-! ## The batcher -/

theorem step_commit (hp : s.batcher.pending = some p) (reply : CommitReply) (reloaded : Reply) :
    step s (.commit reply reloaded) = some (s.commit p reply reloaded) := by
  rw [step, hp]
  rfl

/-- Turns of the batcher's loop until it is over. -/
theorem commits_alone (ops : CommitOps) (hp : s.batcher.pending = some p) :
    ∃ actions s', Machine.run step s actions = some s' ∧ s'.batcher.pending = none ∧
      (⟨s'.batcher.sink, s'.lake⟩ : World) =
        final (commitLoop ops p.files p.left p.attempt ⟨s.batcher.sink, s.lake⟩) := by
  induction hl : p.left using Nat.strong_induction_on generalizing s p with
  | h n ih =>
    subst hl
    have hstep := step_commit hp (ops.commits p.attempt) (ops.reloads p.attempt)
    rcases commitLoop_next ops p ⟨s.batcher.sink, s.lake⟩ with
      ⟨hnext, hfin, -⟩ | ⟨left, w', he, hturn, hloop⟩
    · exact ⟨[_], _, Machine.run_cons.2 ⟨_, hstep, rfl⟩, hnext, by rw [hfin]; rfl⟩
    · have hworld : (⟨(s.commit p (ops.commits p.attempt) (ops.reloads p.attempt)).batcher.sink,
          (s.commit p (ops.commits p.attempt) (ops.reloads p.attempt)).lake⟩ : World) = w' := by
        show final (p.turn (ops.commits p.attempt) (ops.reloads p.attempt) _) = w'
        rw [turn_eq, hturn]
        rfl
      have hpend : (s.commit p (ops.commits p.attempt) (ops.reloads p.attempt)).batcher.pending =
          some ⟨p.files, left, p.attempt + 1⟩ := by
        show p.next (p.turn (ops.commits p.attempt) (ops.reloads p.attempt) _) = _
        rw [turn_eq, hturn, Pending.next, he]
        rfl
      obtain ⟨actions, s', hrun, hnone, hfin⟩ := ih left (by omega) hpend rfl
      exact ⟨_ :: actions, s', Machine.run_cons.2 ⟨_, hstep, hrun⟩, hnone,
        by rw [hfin, hloop, hworld]⟩

theorem commit_of_ne_nil (ops : CommitOps) {files : List DataFile} (hne : files ≠ []) (w : World) :
    ∃ p, Pending.new w.sink files = some p ∧
      commit ops files w = commitLoop ops p.files p.left p.attempt w := by
  have : ¬files.isEmpty = true := by simpa using hne
  exact ⟨_, by rw [Pending.new, if_neg this], by rw [commit_eq hne]⟩

/-- **The batcher's steps are `write_batch`.** -/
theorem batcher_alone (ops : WriteOps) {rows : List TradeEvent} (hne : rows ≠ [])
    (hp : s.batcher.pending = none) :
    ∃ actions s', Machine.run step s (.probe ops rows :: actions) = some s' ∧
      s'.batcher.pending = none ∧ (⟨s'.batcher.sink, s'.lake⟩ : World) =
        final (writeBatch ops rows ⟨s.batcher.sink, s.lake⟩) := by
  have hstep : step s (.probe ops rows) = some (s.probe ops rows) := by
    rw [step, hp]
  cases hf : writeFiles ops rows ⟨s.batcher.sink, s.lake⟩ with
  | error e w =>
    refine ⟨[], s.probe ops rows, Machine.run_cons.2 ⟨_, hstep, rfl⟩, ?_, ?_⟩
    · rw [State.probe, hf]
    · rw [writeBatch_of_error hne hf, State.probe, hf]
      rfl
  | ok out w =>
    obtain ⟨files, probe⟩ := out
    have hprobe : s.probe ops rows =
        { s with lake := w.lake, batcher := ⟨w.sink, Pending.new w.sink files, []⟩ } := by
      rw [State.probe, hf]
    rw [(writeBatch_of_files hne hf).1]
    by_cases hfe : files = []
    · subst hfe
      refine ⟨[], s.probe ops rows, Machine.run_cons.2 ⟨_, hstep, rfl⟩, ?_, ?_⟩
      · rw [hprobe]
        rfl
      · rw [hprobe, commit_nil]
        rfl
    · obtain ⟨p, hpn, hc⟩ := commit_of_ne_nil ops.toCommitOps hfe w
      have hpend : (s.probe ops rows).batcher.pending = some p := by
        rw [hprobe]
        exact hpn
      obtain ⟨actions, s', hrun, hnone, hfin⟩ := commits_alone ops.toCommitOps hpend
      refine ⟨actions, s', Machine.run_cons.2 ⟨_, hstep, hrun⟩, hnone, ?_⟩
      rw [hfin, hc, hprobe]

/-! ## The backfill -/

theorem step_commitChunk (hb : s.backfill = some b) (hp : b.writer.pending = some p)
    (reply : CommitReply) (reloaded : Reply) :
    step s (.commitChunk reply reloaded) = some (s.commitChunk b p reply reloaded) := by
  rw [step, hb]
  dsimp only
  rw [hp]
  rfl

/-- What a backfill is after a chunk that ended as `r`. -/
def Backfilling.after {α : Type} (since : List TradeRow) (cs : List RecordBatch)
    (r : EStateM.Result Error World α) : Option Backfilling :=
  if succeeded r then some ⟨⟨(final r).sink, none, since⟩, cs⟩ else none

/-- Turns of the backfill's loop until the chunk is committed or the backfill has failed. -/
theorem commitChunks_alone (ops : CommitOps) (hb : s.backfill = some b)
    (hp : b.writer.pending = some p) :
    ∃ actions s', Machine.run step s actions = some s' ∧
      s'.lake = (final (commitLoop ops p.files p.left p.attempt ⟨b.writer.sink, s.lake⟩)).lake ∧
      s'.backfill = Backfilling.after b.writer.since b.chunks
        (commitLoop ops p.files p.left p.attempt ⟨b.writer.sink, s.lake⟩) := by
  induction hl : p.left using Nat.strong_induction_on generalizing s b p with
  | h n ih =>
    subst hl
    have hstep := step_commitChunk hb hp (ops.commits p.attempt) (ops.reloads p.attempt)
    rcases commitLoop_next ops p ⟨b.writer.sink, s.lake⟩ with
      ⟨hnext, hfin, hsucc⟩ | ⟨left, w', he, hturn, hloop⟩
    · refine ⟨[_], _, Machine.run_cons.2 ⟨_, hstep, rfl⟩, by rw [hfin]; rfl, ?_⟩
      rw [Backfilling.after, hfin, hsucc, State.commitChunk, turn_eq]
      cases hr : commitTurn ops p.files p.left p.attempt ⟨b.writer.sink, s.lake⟩ with
      | error e w => rfl
      | ok done w =>
        rw [hr] at hnext
        dsimp only
        rw [hnext]
        rfl
    · have hnext : s.commitChunk b p (ops.commits p.attempt) (ops.reloads p.attempt) =
          { lake := w'.lake
            batcher := { s.batcher with since := s.batcher.since ++ gained s.lake w'.lake }
            backfill := some ⟨⟨w'.sink, some ⟨p.files, left, p.attempt + 1⟩, b.writer.since⟩,
              b.chunks⟩ } := by
        rw [State.commitChunk, turn_eq, hturn, Pending.next, he]
        rfl
      have hback : (s.commitChunk b p (ops.commits p.attempt) (ops.reloads p.attempt)).backfill =
          some ⟨⟨w'.sink, some ⟨p.files, left, p.attempt + 1⟩, b.writer.since⟩, b.chunks⟩ := by
        rw [hnext]
      obtain ⟨actions, s', hrun, hlake, hafter⟩ := ih left (by omega) hback rfl rfl
      refine ⟨_ :: actions, s', Machine.run_cons.2 ⟨_, hstep, hrun⟩, ?_, ?_⟩
      · rw [hlake, hnext, hloop]
      · rw [hafter, hnext, hloop]

/-- Once its files are written, an append is their commit. -/
theorem appendRecords_of_chunkFiles {ops : CommitOps} {c : RecordBatch} {w w' : World}
    {files : List DataFile} (h : chunkFiles ops c w = .ok files w') :
    final (appendRecords ops c w) = final (commit ops files w') ∧
      succeeded (appendRecords ops c w) = succeeded (commit ops files w') := by
  by_cases hne : c.numRows = 0
  · rw [chunkFiles, if_pos hne] at h
    cases h
    rw [appendRecords_empty hne]
    exact ⟨rfl, rfl⟩
  · rw [chunkFiles, if_neg hne] at h
    obtain ⟨schema, w₁, hs, h⟩ := bind_ok.1 h
    obtain ⟨bound, w₂, hb, h⟩ := bind_ok.1 h
    rw [appendRecords, if_neg hne, bind_of_ok hs, bind_of_ok hb, bind_of_ok h]
    cases hc : commit ops files w' with
    | ok u w₃ => rw [bind_of_ok hc]; exact ⟨rfl, rfl⟩
    | error e w₃ => rw [bind_of_error hc]; exact ⟨rfl, rfl⟩

theorem appendRecords_of_chunkFiles_error {ops : CommitOps} {c : RecordBatch} {w w' : World}
    {e : Error} (h : chunkFiles ops c w = .error e w') : appendRecords ops c w = .error e w' := by
  by_cases hne : c.numRows = 0
  · rw [chunkFiles, if_pos hne] at h
    cases h
  · rw [chunkFiles, if_neg hne] at h
    rw [appendRecords, if_neg hne]
    rcases bind_error.1 h with h | ⟨schema, w₁, hs, h⟩
    · exact bind_of_error h
    · rw [bind_of_ok hs]
      rcases bind_error.1 h with h | ⟨bound, w₂, hb, h⟩
      · exact bind_of_error h
      · rw [bind_of_ok hb, bind_of_error h]

/-- One chunk is one `append_records`. -/
theorem chunk_alone (ops : CommitOps) {sink : IcebergSink} {since : List TradeRow} {c : RecordBatch}
    {cs : List RecordBatch} (hb : s.backfill = some ⟨⟨sink, none, since⟩, c :: cs⟩) :
    ∃ actions s', Machine.run step s (.writeChunk ops :: actions) = some s' ∧
      s'.lake = (final (appendRecords ops c ⟨sink, s.lake⟩)).lake ∧
      s'.backfill = Backfilling.after since cs (appendRecords ops c ⟨sink, s.lake⟩) := by
  have hstep : step s (.writeChunk ops) =
      some (s.writeChunk ⟨⟨sink, none, since⟩, c :: cs⟩ c cs ops) := by
    rw [step, hb]
  cases hf : chunkFiles ops c ⟨sink, s.lake⟩ with
  | error e w =>
    refine ⟨[], _, Machine.run_cons.2 ⟨_, hstep, rfl⟩, ?_, ?_⟩
    · rw [State.writeChunk, hf, appendRecords_of_chunkFiles_error hf]
      rfl
    · rw [State.writeChunk, hf, appendRecords_of_chunkFiles_error hf]
      rfl
  | ok files w =>
    obtain ⟨hfin, hsucc⟩ := appendRecords_of_chunkFiles hf
    have hwrite : s.writeChunk ⟨⟨sink, none, since⟩, c :: cs⟩ c cs ops = { s with
        lake := w.lake, backfill := some ⟨⟨w.sink, Pending.new w.sink files, since⟩, cs⟩ } := by
      rw [State.writeChunk, hf]
    rw [hwrite] at hstep
    by_cases hfe : files = []
    · subst hfe
      refine ⟨[], _, Machine.run_cons.2 ⟨_, hstep, rfl⟩, ?_, ?_⟩
      · rw [hfin, commit_nil]
        rfl
      · rw [Backfilling.after, hfin, hsucc, commit_nil]
        rfl
    · obtain ⟨p, hpn, hc⟩ := commit_of_ne_nil ops hfe w
      rw [hpn] at hstep
      obtain ⟨actions, s', hrun, hlake, hback⟩ := commitChunks_alone (p := p)
        (b := ⟨⟨w.sink, some p, since⟩, cs⟩) (s := { s with
          lake := w.lake, backfill := some ⟨⟨w.sink, some p, since⟩, cs⟩ }) ops rfl rfl
      refine ⟨actions, s', Machine.run_cons.2 ⟨_, hstep, hrun⟩, ?_, ?_⟩
      · rw [hlake, hfin, hc]
      · rw [hback, Backfilling.after, Backfilling.after, hfin, hsucc, hc]

/-- The chunks, one after the other. -/
theorem chunks_alone (ops : Nat → CommitOps) {sink : IcebergSink} {since : List TradeRow}
    (cs : List RecordBatch) (n : Nat) (hb : s.backfill = some ⟨⟨sink, none, since⟩, cs⟩) :
    ∃ actions s', Machine.run step s actions = some s' ∧
      s'.lake = (final (appendChunks ops n cs ⟨sink, s.lake⟩)).lake := by
  induction cs generalizing s sink n with
  | nil => exact ⟨[], s, rfl, rfl⟩
  | cons c cs ih =>
    obtain ⟨actions, s₁, hrun, hlake, hback⟩ := chunk_alone (ops n) hb
    rw [appendChunks]
    cases hr : appendRecords (ops n) c ⟨sink, s.lake⟩ with
    | error e w =>
      rw [hr] at hlake
      exact ⟨_, s₁, hrun, by rw [hlake, bind_of_error hr]; rfl⟩
    | ok stats w =>
      rw [hr] at hlake hback
      obtain ⟨actions', s', hrun', hlake'⟩ := ih (n + 1) hback
      refine ⟨_ ++ actions', s', Machine.run_append.2 ⟨s₁, hrun, hrun'⟩, ?_⟩
      rw [hlake', bind_of_ok hr, hlake]
      rfl

/-- **The backfill's steps are `crypto-backfill --execute`.** -/
theorem backfill_alone (cmd : Command) (run : RunOps) (hs : s.lake.table.schema = Trades.schema)
    (hb : s.backfill = none) (hcfg : run.cfg = cmd.cfg) (horder : run.order = cmd.order)
    (hexec : run.exec = cmd.exec) (hopen : run.openTable = .ok ())
    (hwid : Backfill.widensNanos cmd.start cmd.stop cmd.marginDays = true)
    (hplan : run.stream.plan = .ok ()) (hstart : run.stream.start = .ok ()) :
    ∃ actions s', Machine.run step s (.start cmd :: actions) = some s' ∧
      s'.lake = (Backfill.execute cmd.ident cmd.source cmd.start cmd.stop cmd.marginDays
        cmd.chunkRows run s.lake).1 := by
  have hstep : step s (.start cmd) = some (s.start cmd) := by
    rw [step, hb]
  have hrows : Backfill.candidateSql Backfill.widensNanos cmd.order cmd.source s.lake.rows cmd.start
      cmd.stop cmd.marginDays = Backfill.candidates cmd.order cmd.source s.lake.rows cmd.start
        cmd.stop cmd.marginDays := if_pos hwid
  obtain ⟨actions, s', hrun, hlake⟩ := chunks_alone (s := s.start cmd) run.stream.chunks _ 0 rfl
  refine ⟨actions, s', Machine.run_cons.2 ⟨_, hstep, hrun⟩, ?_⟩
  rw [hlake, Backfill.execute, appendQuery_lake hopen,
    streamInto_chunks (opened_connect cmd.ident run.cfg hs) hplan hstart, hcfg, horder, hexec]
  show _ = (final (appendChunks _ 0 (chunks Trades.schema _ _) _)).lake
  rw [← hs, hrows]
  rfl

end

end Writers
