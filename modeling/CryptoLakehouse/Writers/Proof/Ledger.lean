import CryptoLakehouse.Lib.Ledger
import CryptoLakehouse.Lib.Simulation
import CryptoLakehouse.Writers.Proof.OneRowPerKey

/-!
# The table as a ledger of writes

Both writers give their files names of their own (`Owns`) and present them to the catalog together,
again and again until an attempt ends well; a `fast_append` of files that the table references is
refused. So the table is a ledger of whole writes, each of which it has once at most, whatever
answers are lost and whoever is killed.

* `simulates` — every step is one of `Ledger.Step` or none, with a write on its way either in the
  ledger as a whole or not at all, and each group of the ledger one of the writes so far.
* `refines_ledger` — so it is for runs, where each write makes one snapshot at most.
-/

namespace Writers

open Arrow Trades Sink Query Fallible

/-! ## The names of a writer's files -/

section
variable {ops : CommitOps} {w w' : World} {files : List DataFile}

theorem nodup_nameFiles (gen : FileNameGen) (parts : List (Partition × List TradeRow × Nat)) :
    ((nameFiles gen parts).map (·.path)).Nodup := by
  have h : (nameFiles gen parts).map (·.path) =
      (List.range parts.length).map fun i => ⟨gen.uuid, gen.next + i⟩ := by
    refine List.ext_getElem (by simp) fun i _ _ => ?_
    simp [nameFiles]
  rw [h]
  refine List.nodup_range.map fun i j hij => ?_
  simpa using hij

theorem nodup_writeRecords {batch : RecordBatch} (h : writeRecords ops batch w = .ok files w') :
    (files.map (·.path)).Nodup := by
  cases hr : ops.writeRecords with
  | ok u =>
    rw [writeRecords_ok hr] at h
    cases h
    exact nodup_nameFiles _ _
  | error why =>
    obtain ⟨e, he⟩ := writeRecords_error batch w hr
    rw [he] at h
    cases h

theorem nodup_writeFiles {ops : WriteOps} {rows : List TradeEvent} {probe : ProbeStats}
    (h : writeFiles ops rows w = .ok (files, probe) w') : (files.map (·.path)).Nodup := by
  unfold writeFiles at h
  obtain ⟨schema, w₁, -, h⟩ := bind_ok.1 h
  obtain ⟨batch, w₂, -, h⟩ := bind_ok.1 h
  obtain ⟨⟨remaining, probe'⟩, w₃, -, h⟩ := bind_ok.1 h
  obtain ⟨deduped, w₄, -, h⟩ := bind_ok.1 h
  obtain ⟨files', w₅, hw, h⟩ := bind_ok.1 h
  cases h
  exact nodup_writeRecords hw

theorem nodup_chunkFiles {c : RecordBatch} (h : chunkFiles ops c w = .ok files w') :
    (files.map (·.path)).Nodup := by
  unfold chunkFiles at h
  split at h
  · cases h
    exact List.nodup_nil
  · obtain ⟨schema, w₁, -, h⟩ := bind_ok.1 h
    obtain ⟨bound, w₂, -, h⟩ := bind_ok.1 h
    exact nodup_writeRecords h

end

/-- A writer of an opened table, with files of its own on their way. -/
structure Owns (lake : Lake) (wr : Writer) : Prop where
  opened : Opened Trades.schema ⟨wr.sink, lake⟩
  owned : ∀ p, wr.pending = some p → p.Owned wr.sink
  once : ∀ p, wr.pending = some p → (p.files.map (·.path)).Nodup

/-- The names of the two writers. -/
structure Apart (s : State) : Prop where
  batcher : Owns s.lake s.batcher
  backfill : ∀ b, s.backfill = some b → Owns s.lake b.writer ∧
    (∀ c ∈ b.chunks, c.schema = Trades.schema) ∧
    b.writer.sink.fileNameGen.uuid ≠ s.batcher.sink.fileNameGen.uuid

section
variable {lake : Lake} {wr : Writer} {files : List DataFile} {w w' : World} {p : Pending}
  {since : List TradeRow}

theorem Owns.foreign (h : Owns lake wr) (hf : ∀ f ∈ files, f.path.uuid ≠ wr.sink.fileNameGen.uuid) :
    Owns (lake.append files) wr :=
  ⟨h.opened.foreign hf, h.owned, h.once⟩

/-- Another writer's files are not those on their way. -/
theorem Owns.unreferenced (h : Owns lake wr) (hp : wr.pending = some p)
    (hf : ∀ f ∈ files, f.path.uuid ≠ wr.sink.fileNameGen.uuid) (hu : Unreferenced lake p.files) :
    Unreferenced (lake.append files) p.files := by
  intro f hfp g hg
  rcases List.mem_append.1 hg with hg | hg
  · exact hu f hfp g hg
  · intro he
    refine hf g hg ?_
    rw [he]
    exact (h.owned p hp).uuid f hfp

/-- A turn of the other writer. -/
theorem Owns.foreignTurn (h : Owns lake wr) (ht : Turn files w w') (hw : w.lake = lake)
    (hf : ∀ f ∈ files, f.path.uuid ≠ wr.sink.fileNameGen.uuid) : Owns w'.lake wr := by
  rcases ht.lake with hl | ⟨-, hl⟩
  · rw [hl, hw]
    exact h
  · rw [hl, hw]
    exact h.foreign hf

theorem owns_connect (ident : String) (cfg : IcebergConfig)
    (hl : lake.table.schema = Trades.schema) :
    Owns (connect ident cfg lake).lake ⟨(connect ident cfg lake).sink, none, since⟩ :=
  ⟨opened_connect ident cfg hl, fun _ hp => (nomatch hp), fun _ hp => (nomatch hp)⟩

/-- A writer that has just connected has names of its own. -/
theorem Owns.connect (h : Owns lake wr) (ident : String) (cfg : IcebergConfig) :
    Owns (connect ident cfg lake).lake wr :=
  ⟨⟨h.opened.sinkSchema, h.opened.lakeSchema, h.opened.session,
    Nat.lt_succ_of_lt h.opened.uuid, h.opened.fresh⟩, h.owned, h.once⟩

theorem pending_new {sink : IcebergSink} (h : Pending.new sink files = some p) :
    files ≠ [] ∧ p.files = files := by
  unfold Pending.new at h
  split at h
  · cases h
  · rename_i hne
    cases h
    exact ⟨fun he => hne (he ▸ rfl), rfl⟩

theorem owns_new (ho : Opened Trades.schema w) (hn : Named w files)
    (hd : (files.map (·.path)).Nodup) :
    Owns w.lake ⟨w.sink, Pending.new w.sink files, since⟩ := by
  refine ⟨ho, fun p hp => ?_, fun p hp => ?_⟩
  · obtain ⟨hne, he⟩ := pending_new hp
    exact ⟨he ▸ hne, he ▸ hn.uuid, he ▸ hn.count⟩
  · rw [(pending_new hp).2]
    exact hd

/-- What is left to do after a turn is what there was before it. -/
theorem next_files {r : EStateM.Result Error World Bool} {q : Pending} (h : p.next r = some q) :
    q.files = p.files := by
  unfold Pending.next at h
  split at h
  · cases h
    rfl
  · cases h

theorem Owns.turn (h : Owns lake wr) (hp : wr.pending = some p) (reply : CommitReply)
    (reloaded : Reply) :
    Owns (final (p.turn reply reloaded ⟨wr.sink, lake⟩)).lake
      ⟨(final (p.turn reply reloaded ⟨wr.sink, lake⟩)).sink,
        p.next (p.turn reply reloaded ⟨wr.sink, lake⟩), wr.since⟩ := by
  have ht := turn_turn p reply reloaded ⟨wr.sink, lake⟩
  have hown := h.owned p hp
  have hgen : (final (p.turn reply reloaded ⟨wr.sink, lake⟩)).sink.fileNameGen =
      wr.sink.fileNameGen := by rw [ht.sink]
  refine ⟨h.opened.turn hown.count ht, fun q hq => ⟨?_, ?_, ?_⟩, fun q hq => ?_⟩
  · rw [next_files hq]
    exact hown.ne_nil
  · rw [next_files hq, hgen]
    exact hown.uuid
  · rw [next_files hq, hgen]
    exact hown.count
  · rw [next_files hq]
    exact h.once p hp

end

section
variable {s s' : State} {a : Action} {b : Backfilling}

theorem Apart.probe (h : Apart s) (ops : WriteOps) (rows : List TradeEvent) :
    Apart (s.probe ops rows) := by
  unfold State.probe
  rcases writeFiles_spec h.batcher.opened ops rows with
    ⟨files, probe, hf, hn, -⟩ | ⟨e, w, hf, ho, hl, hg⟩
  · rw [hf]
    exact ⟨owns_new h.batcher.opened.advance hn (nodup_writeFiles hf), h.backfill⟩
  · rw [hf]
    dsimp only
    have hw : w = ⟨w.sink, s.lake⟩ := by rw [← show w.lake = s.lake from hl]
    refine ⟨?_, fun b hb => ?_⟩
    · rw [hl]
      exact ⟨hw ▸ ho, fun _ hp => (nomatch hp), fun _ hp => (nomatch hp)⟩
    · rw [hl, hg]
      exact h.backfill b hb

theorem Apart.commit (h : Apart s) {p : Pending} (hp : s.batcher.pending = some p)
    (reply : CommitReply) (reloaded : Reply) : Apart (s.commit p reply reloaded) := by
  have ht := turn_turn p reply reloaded ⟨s.batcher.sink, s.lake⟩
  have hown := h.batcher.owned p hp
  refine ⟨h.batcher.turn hp reply reloaded, fun b hb => ?_⟩
  obtain ⟨b₀, hb₀, rfl⟩ := Option.map_eq_some_iff.1 hb
  obtain ⟨hr, hs, hne⟩ := h.backfill b₀ hb₀
  have hfor : ∀ f ∈ p.files, f.path.uuid ≠ b₀.writer.sink.fileNameGen.uuid := fun f hf => by
    rw [hown.uuid f hf]
    exact hne.symm
  have hgen : (s.commit p reply reloaded).batcher.sink.fileNameGen =
      s.batcher.sink.fileNameGen := by
    show (final (p.turn reply reloaded ⟨s.batcher.sink, s.lake⟩)).sink.fileNameGen = _
    rw [ht.sink]
  obtain ⟨ho, hown', honce⟩ := hr.foreignTurn ht rfl hfor
  refine ⟨⟨ho, hown', honce⟩, hs, ?_⟩
  rw [hgen]
  exact hne

theorem Apart.restart (h : Apart s) (ident : String) (cfg : IcebergConfig) :
    Apart (s.restart ident cfg) := by
  refine ⟨owns_connect ident cfg h.batcher.opened.lakeSchema, fun b hb => ?_⟩
  obtain ⟨hr, hs, -⟩ := h.backfill b hb
  exact ⟨hr.connect ident cfg, hs, Nat.ne_of_lt hr.opened.uuid⟩

theorem Apart.start (h : Apart s) (cmd : Command) : Apart (s.start cmd) := by
  have hschema := h.batcher.opened.lakeSchema
  have hsink : (connect cmd.ident cmd.cfg s.lake).sink.table.schema = Trades.schema := hschema
  refine ⟨h.batcher.connect cmd.ident cmd.cfg, fun b hb => ?_⟩
  obtain ⟨hs, -⟩ := chunks_stream cmd.exec (Backfill.candidateSql Backfill.widensNanos cmd.order
    cmd.source s.lake.rows cmd.start cmd.stop cmd.marginDays) cmd.chunkRows
  unfold State.start at hb
  dsimp only at hb
  rw [hsink] at hb
  cases hb
  exact ⟨owns_connect cmd.ident cmd.cfg hschema, hs, (Nat.ne_of_lt h.batcher.opened.uuid).symm⟩

theorem Apart.writeChunk (h : Apart s) (hb : s.backfill = some b) {c : RecordBatch}
    {cs : List RecordBatch} (hc : b.chunks = c :: cs) (ops : CommitOps) :
    Apart (s.writeChunk b c cs ops) := by
  obtain ⟨hr, hs, hne⟩ := h.backfill b hb
  rw [hc] at hs
  obtain ⟨hsc, hscs⟩ := List.forall_mem_cons.1 hs
  unfold State.writeChunk
  rcases chunkFiles_spec hr.opened hsc with ⟨files, hf, hn, -⟩ | ⟨e, w, hf, hl⟩
  · rw [hf]
    refine ⟨h.batcher, fun b' hb' => ?_⟩
    cases hb'
    exact ⟨owns_new hr.opened.advance hn (nodup_chunkFiles hf), hscs, hne⟩
  · rw [hf]
    dsimp only
    rw [hl]
    exact ⟨h.batcher, fun b' hb' => nomatch hb'⟩

theorem Apart.commitChunk (h : Apart s) (hb : s.backfill = some b) {p : Pending}
    (hp : b.writer.pending = some p) (reply : CommitReply) (reloaded : Reply) :
    Apart (s.commitChunk b p reply reloaded) := by
  obtain ⟨hr, hs, hne⟩ := h.backfill b hb
  have ht := turn_turn p reply reloaded ⟨b.writer.sink, s.lake⟩
  have hfor : ∀ f ∈ p.files, f.path.uuid ≠ s.batcher.sink.fileNameGen.uuid := fun f hf => by
    rw [(hr.owned p hp).uuid f hf]
    exact hne
  obtain ⟨ho, hown, honce⟩ := h.batcher.foreignTurn ht rfl hfor
  refine ⟨⟨ho, hown, honce⟩, fun b' hb' => ?_⟩
  have hturn := hr.turn hp reply reloaded
  unfold State.commitChunk at hb' ⊢
  dsimp only at hb' ⊢
  split at hb'
  · rename_i done w he
    cases hb'
    rw [he] at ht hturn ⊢
    refine ⟨hturn, hs, ?_⟩
    rw [show w.sink.fileNameGen = b.writer.sink.fileNameGen by rw [show w.sink = _ from ht.sink]]
    exact hne
  · cases hb'

theorem apart_step (h : Apart s) (hs : step s a = some s') : Apart s' := by
  cases step_takes hs with
  | probe _ => exact h.probe _ _
  | commit hp => exact h.commit hp _ _
  | restart => exact h.restart _ _
  | start _ => exact h.start _
  | writeChunk hb _ hc => exact h.writeChunk hb hc _
  | commitChunk hb hp => exact h.commitChunk hb hp _ _
  | exit => exact ⟨h.batcher, fun _ hb => nomatch hb⟩

theorem apart_init (ident : String) (cfg : IcebergConfig) {lake : Lake}
    (hl : lake.table.schema = Trades.schema) : Apart (.init ident cfg lake) :=
  ⟨owns_connect ident cfg hl, fun _ hb => nomatch hb⟩

end

/-! ## The ledger -/

/-- The files that a writer has on their way are in the ledger together, or none of them is. -/
def Whole (log : List (List DataFile)) (lake : Lake) (wr : Writer) : Prop :=
  ∀ p, wr.pending = some p → p.files ∈ log ∨ Unreferenced lake p.files

/-- The files that a step has put on their way, in the state after it. -/
def State.puts : Action → State → List (List DataFile)
  | .probe _ _, s => (s.batcher.pending.map (·.files)).toList
  | .writeChunk _, s => (s.backfill.bind fun b => b.writer.pending.map (·.files)).toList
  | _, _ => []

/-- The lists of files that the writes of a run have put on their way. -/
def writes (s : State) (as : List Action) : List (List DataFile) :=
  Machine.outputs step State.puts s as

/-- A writer has the files on their way. -/
def State.OnWay (s : State) (files : List DataFile) : Prop :=
  (∃ p, s.batcher.pending = some p ∧ p.files = files) ∨
    ∃ b, s.backfill = some b ∧ ∃ p, b.writer.pending = some p ∧ p.files = files

/-- Each group of the ledger but the first is one of the writes, and so are the files on their way. -/
structure Written (base : Table) (record : List (List DataFile)) (s : State)
    (log : List (List DataFile)) : Prop where
  groups : ∀ g ∈ log, g = base.files ∨ g ∈ record
  onWay : ∀ g, s.OnWay g → g ∈ record

/-- The table's files are those of the ledger, and each of its writes made a snapshot. -/
structure Books (base : Table) (s : State) (log : List (List DataFile)) : Prop where
  files : s.lake.table.files = log.flatten
  snapshots : s.lake.table.snapshots + 1 = base.snapshots + log.length
  batcher : Whole log s.lake s.batcher
  backfill : ∀ b, s.backfill = some b → Whole log s.lake b.writer

section
variable {base : Table} {s s' : State} {a : Action} {b : Backfilling} {lake : Lake} {wr : Writer}
  {files : List DataFile} {log : List (List DataFile)} {w w' : World} {p : Pending}

/-- Files that were just written are not in the table. -/
theorem whole_new {since : List TradeRow} {sink : IcebergSink} (h : Unreferenced lake files) :
    Whole log lake ⟨sink, Pending.new sink files, since⟩ := fun p hp => by
  rw [(pending_new hp).2]
  exact .inr h

theorem Whole.foreign (h : Whole log lake wr) (ho : Owns lake wr)
    (hf : ∀ f ∈ files, f.path.uuid ≠ wr.sink.fileNameGen.uuid) :
    Whole (log ++ [files]) (lake.append files) wr := fun p hp =>
  (h p hp).imp (List.mem_append_left _) (ho.unreferenced hp hf)

/-- What a turn makes of the ledger, with `others` for the other writer's files. -/
structure Turned (base : Table) (log : List (List DataFile)) (lake lake' : Lake) (wr : Writer)
    (uuid : Nat) (log' : List (List DataFile)) : Prop where
  steps : Relation.ReflTransGen (Ledger.Step DataFile.path) log log'
  files : lake'.table.files = log'.flatten
  snapshots : lake'.table.snapshots + 1 = base.snapshots + log'.length
  whole : Whole log' lake' wr
  others : ∀ other, Owns lake other → other.sink.fileNameGen.uuid ≠ uuid →
    Whole log lake other → Whole log' lake' other

/-- **A turn** appends its write to the ledger, or leaves the ledger as it is. -/
theorem turned (ho : Owns lake wr) (hp : wr.pending = some p) (hw : Whole log lake wr)
    (hf : lake.table.files = log.flatten)
    (hs : lake.table.snapshots + 1 = base.snapshots + log.length)
    {r : EStateM.Result Error World Bool} (ht : Turn p.files ⟨wr.sink, lake⟩ (final r))
    (sink : IcebergSink) (since : List TradeRow) :
    ∃ log', Turned base log lake (final r).lake ⟨sink, p.next r, since⟩
      wr.sink.fileNameGen.uuid log' ∧ ∀ g ∈ log', g ∈ log ∨ g = p.files := by
  rcases ht.lake with hl | ⟨hu, hl⟩
  · refine ⟨log, ⟨.refl, hl ▸ hf, hl ▸ hs, fun q hq => ?_, fun other _ _ hother => hl ▸ hother⟩,
      fun _ => .inl⟩
    rw [next_files hq, hl]
    exact hw p hp
  · refine ⟨log ++ [p.files], ⟨.single (.append (ho.owned p hp).ne_nil (ho.once p hp)
      fun f hfp hm => ?_), ?_, ?_, fun q hq => .inl ?_, fun other hown hne hother => ?_⟩,
      fun g hg => (List.mem_append.1 hg).imp id List.mem_singleton.1⟩
    · rw [Ledger.names, ← hf] at hm
      obtain ⟨g, hg, he⟩ := List.mem_map.1 hm
      exact hu f hfp g hg he
    · rw [hl, List.flatten_append, List.flatten_singleton, ← hf]
      rfl
    · rw [hl, List.length_append, List.length_singleton]
      show lake.table.snapshots + 1 + 1 = _
      omega
    · rw [next_files hq]
      exact List.mem_append_right _ (List.mem_singleton_self _)
    · rw [hl]
      refine hother.foreign hown fun f hfp => ?_
      rw [(ho.owned p hp).uuid f hfp]
      exact hne.symm

/-- A step of the writers appends one of the writes on their way, or nothing. -/
theorem books_step (h : Apart s) (hb : Books base s log) (hs : step s a = some s') :
    ∃ log', Relation.ReflTransGen (Ledger.Step DataFile.path) log log' ∧ Books base s' log' ∧
      ∀ g ∈ log', g ∈ log ∨ s.OnWay g := by
  cases step_takes hs with
  | @probe ops rows _ =>
    refine ⟨log, .refl, ?_, fun _ => .inl⟩
    unfold State.probe
    rcases writeFiles_spec h.batcher.opened ops rows with
      ⟨files, probe, hf, hn, -⟩ | ⟨e, w, hf, -, hl, -⟩
    · rw [hf]
      exact ⟨hb.files, hb.snapshots, whole_new hn.unreferenced, hb.backfill⟩
    · rw [hf]
      dsimp only at hl ⊢
      rw [hl]
      exact ⟨hb.files, hb.snapshots, fun _ hp => (nomatch hp), hb.backfill⟩
  | @commit reply reloaded p hp =>
    have ht := turn_turn p reply reloaded ⟨s.batcher.sink, s.lake⟩
    obtain ⟨log', ⟨hsteps, hf, hn, hw, hother⟩, hlog⟩ := turned h.batcher hp hb.batcher hb.files
      hb.snapshots ht (final (p.turn reply reloaded ⟨s.batcher.sink, s.lake⟩)).sink s.batcher.since
    refine ⟨log', hsteps, ⟨hf, hn, hw, fun b' hb' => ?_⟩,
      fun g hg => (hlog g hg).imp id fun he => .inl ⟨p, hp, he.symm⟩⟩
    obtain ⟨b, hbf, rfl⟩ := Option.map_eq_some_iff.1 hb'
    obtain ⟨hr, -, hne⟩ := h.backfill b hbf
    exact hother b.writer hr hne (hb.backfill b hbf)
  | restart =>
    exact ⟨log, .refl, ⟨hb.files, hb.snapshots, fun _ hp => (nomatch hp), hb.backfill⟩,
      fun _ => .inl⟩
  | @start cmd _ =>
    refine ⟨log, .refl, ⟨hb.files, hb.snapshots, hb.batcher, fun b' hb' => ?_⟩, fun _ => .inl⟩
    cases hb'
    exact fun _ hp => (nomatch hp)
  | @writeChunk ops b c cs hbf _ hc =>
    obtain ⟨hr, hsc, -⟩ := h.backfill b hbf
    rw [hc] at hsc
    refine ⟨log, .refl, ?_, fun _ => .inl⟩
    unfold State.writeChunk
    rcases chunkFiles_spec hr.opened (List.forall_mem_cons.1 hsc).1 with
      ⟨files, hf, hn, -⟩ | ⟨e, w, hf, hl⟩
    · rw [hf]
      refine ⟨hb.files, hb.snapshots, hb.batcher, fun b' hb' => ?_⟩
      cases hb'
      exact whole_new hn.unreferenced
    · rw [hf]
      dsimp only at hl ⊢
      rw [hl]
      exact ⟨hb.files, hb.snapshots, hb.batcher, fun b' hb' => nomatch hb'⟩
  | @commitChunk reply reloaded b p hbf hp =>
    obtain ⟨hr, -, hne⟩ := h.backfill b hbf
    have ht := turn_turn p reply reloaded ⟨b.writer.sink, s.lake⟩
    obtain ⟨log', ⟨hsteps, hf, hn, hw, hother⟩, hlog⟩ := turned hr hp (hb.backfill b hbf) hb.files
      hb.snapshots ht (final (p.turn reply reloaded ⟨b.writer.sink, s.lake⟩)).sink b.writer.since
    refine ⟨log', hsteps, ⟨hf, hn, hother s.batcher h.batcher hne.symm hb.batcher,
      fun b' hb' => ?_⟩, fun g hg => (hlog g hg).imp id fun he => .inr ⟨b, hbf, p, hp, he.symm⟩⟩
    unfold State.commitChunk at hb' ⊢
    dsimp only at hb' ⊢
    split at hb'
    · rename_i done w he
      cases hb'
      rw [he] at hw ⊢
      exact hw
    · cases hb'
  | exit =>
    exact ⟨log, .refl, ⟨hb.files, hb.snapshots, hb.batcher, fun _ hb' => nomatch hb'⟩,
      fun _ => .inl⟩

/-- What is on its way after a step was so before, or is what the step has put out. -/
theorem onWay_step (hs : step s a = some s') (h : s'.OnWay files) :
    s.OnWay files ∨ files ∈ State.puts a s' := by
  cases step_takes hs with
  | @probe ops rows _ =>
    rcases h with ⟨p, hp, rfl⟩ | h
    · exact .inr (by rw [State.puts, hp]; exact List.mem_singleton_self _)
    · refine .inl (.inr ?_)
      unfold State.probe at h
      split at h <;> exact h
  | @commit reply reloaded p hp =>
    rcases h with ⟨q, hq, rfl⟩ | ⟨b', hb', h⟩
    · exact .inl (.inl ⟨p, hp, (next_files hq).symm⟩)
    · obtain ⟨b, hb, rfl⟩ := Option.map_eq_some_iff.1 hb'
      exact .inl (.inr ⟨b, hb, h⟩)
  | restart =>
    rcases h with ⟨p, hp, -⟩ | h
    · cases hp
    · exact .inl (.inr h)
  | start _ =>
    rcases h with h | ⟨b', hb', p, hp, -⟩
    · exact .inl (.inl h)
    · cases hb'
      cases hp
  | @writeChunk ops b c cs _ _ _ =>
    rcases h with h | ⟨b', hb', p, hp, rfl⟩
    · refine .inl (.inl ?_)
      unfold State.writeChunk at h
      split at h <;> exact h
    · exact .inr (by rw [State.puts, hb', Option.bind_some, hp]; exact List.mem_singleton_self _)
  | @commitChunk reply reloaded b p hb hp =>
    rcases h with h | ⟨b', hb', q, hq, rfl⟩
    · exact .inl (.inl h)
    · refine .inl (.inr ⟨b, hb, p, hp, ?_⟩)
      unfold State.commitChunk at hb'
      dsimp only at hb'
      split at hb'
      · cases hb'
        exact (next_files hq).symm
      · cases hb'
  | exit =>
    rcases h with h | ⟨b', hb', -⟩
    · exact .inl (.inl h)
    · cases hb'

/-- Each step of the two writers is one of the ledger, or none. -/
theorem simulates : Machine.Simulates (Machine.recording step State.puts) (fun _ => True)
    (Ledger.Step DataFile.path)
    fun x log => Apart x.1 ∧ Books base x.1 log ∧ Written base x.2 x.1 log := by
  rintro ⟨s, record⟩ a x log - ⟨h, hb, hw⟩ hx
  obtain ⟨s', hs, rfl⟩ := Option.map_eq_some_iff.1 hx
  obtain ⟨log', hsteps, hb', hlog⟩ := books_step h hb hs
  refine ⟨log', hsteps, apart_step h hs, hb', fun g hg => ?_, fun g hg => ?_⟩
  · rcases hlog g hg with hg | hg
    · exact (hw.groups g hg).imp id (List.mem_append_left _)
    · exact .inr (List.mem_append_left _ (hw.onWay g hg))
  · rcases onWay_step hs hg with hg | hg
    · exact List.mem_append_left _ (hw.onWay g hg)
    · exact List.mem_append_right _ hg

end

/-! ## One snapshot for a write -/

/-- The actions that put files on their way. -/
def Action.writes : Action → Bool
  | .probe _ _ => true
  | .writeChunk _ => true
  | _ => false

theorem length_puts_le (a : Action) (s : State) : (State.puts a s).length ≤ if a.writes then 1 else 0 := by
  cases a with
  | probe ops rows => exact Option.length_toList_le
  | writeChunk ops => exact Option.length_toList_le
  | _ => exact le_rfl

/-- Each probe and each chunk write puts out one list of files at most. -/
theorem length_writes_le (s : State) (as : List Action) :
    (writes s as).length ≤ as.countP Action.writes := by
  induction as generalizing s with
  | nil => exact le_rfl
  | cons a as ih =>
    rw [writes, Machine.outputs, List.countP_cons]
    cases step s a with
    | none => exact Nat.zero_le _
    | some m =>
      rw [Option.elim_some, List.length_append, Nat.add_comm]
      exact Nat.add_le_add (ih m) (length_puts_le a m)

/-! ## Every run -/

/-- **A ledger of whole writes.** After any run of the two writers, with whatever answers lost and
whoever restarted, the table is a ledger that starts with the files of before and goes on with whole
writes, a snapshot each: the files on their way are in it together or not at all (`Books`), and what
was appended are writes of the run, none twice. Each write of the run makes one snapshot at most, no
file is in the table twice, and none is gone. -/
theorem refines_ledger (ident : String) (cfg : IcebergConfig) {lake : Lake}
    (hl : lake.table.schema = Trades.schema) (hd : (lake.table.files.map (·.path)).Nodup)
    {as : List Action} {s : State} (h : Machine.run step (.init ident cfg lake) as = some s) :
    (∃ log, Relation.ReflTransGen (Ledger.Step DataFile.path) [lake.table.files] log ∧
      Books lake.table s log ∧ ∃ more, log = lake.table.files :: more ∧
        more.Subperm (writes (.init ident cfg lake) as)) ∧
    s.lake.table.snapshots ≤ lake.table.snapshots + as.countP Action.writes ∧
    (s.lake.table.files.map (·.path)).Nodup ∧
    ∃ more, s.lake.table.files = lake.table.files ++ more := by
  have hstart : Apart (.init ident cfg lake) ∧
      Books lake.table (.init ident cfg lake) [lake.table.files] ∧
      Written lake.table [] (.init ident cfg lake) [lake.table.files] := by
    refine ⟨apart_init ident cfg hl, ⟨by simp [State.init, connect], rfl, fun _ hp => (nomatch hp),
      fun _ hb => (nomatch hb)⟩, fun g hg => .inl (List.mem_singleton.1 hg), ?_⟩
    rintro g (⟨p, hp, -⟩ | ⟨b, hb, -⟩)
    · cases hp
    · cases hb
  obtain ⟨log, hsteps, -, hb, hw⟩ := simulates.run (fun _ _ => trivial) hstart
    (Machine.run_recording State.puts h [])
  obtain ⟨more, rfl⟩ := Ledger.extends_of_steps hsteps
  have hnodup := Ledger.groups_of_steps hsteps (List.nodup_singleton _)
  obtain ⟨hfirst, hmore⟩ := List.nodup_cons.1 hnodup
  have hsub : more.Subperm (writes (.init ident cfg lake) as) := by
    refine List.subperm_of_subset hmore fun g hg => ?_
    rcases hw.groups g (List.mem_append_right _ hg) with rfl | hg'
    · exact absurd hg hfirst
    · exact hg'
  refine ⟨⟨_, hsteps, hb, more, rfl, hsub⟩, ?_, ?_, more.flatten, ?_⟩
  · have hsnap : s.lake.table.snapshots + 1 =
        lake.table.snapshots + ([lake.table.files] ++ more).length := hb.snapshots
    have hle := hsub.length_le.trans (length_writes_le _ as)
    rw [List.length_append, List.length_singleton] at hsnap
    omega
  · have hn := Ledger.nodup_of_steps hsteps (by simpa [Ledger.names] using hd)
    rwa [Ledger.names, ← hb.files] at hn
  · rw [hb.files]
    simp

/-- The batcher's commit takes effect and its answer is lost; the retry is refused, and the
backfill commits in between. -/
def lostAnswer : List Action :=
  [.start fillDayZero, .writeChunk .allOk, .probe .allOk [btcTrade 2 1000],
    .commit (.lost "timeout") (.ok ()), .commitChunk .applied (.ok ()),
    .commit .applied (.ok ())]

theorem refines_ledger_lost : ∃ s,
    Machine.run step (.init "trades.trades" ⟨5⟩ .created) lostAnswer = some s ∧
    s.lake.table.snapshots = 2 ∧ (s.lake.table.files.map (·.path)).Nodup ∧
    ∃ log, Relation.ReflTransGen (Ledger.Step DataFile.path) [[]] log ∧
      Books Lake.created.table s log ∧ ∃ more, log = [] :: more ∧
        more.Subperm (writes (.init "trades.trades" ⟨5⟩ .created) lostAnswer) := by
  have hx : (Machine.run step (.init "trades.trades" ⟨5⟩ .created) lostAnswer).map
      (·.lake.table.snapshots) = some 2 := by decide +kernel
  obtain ⟨s, hs, hsnap⟩ := Option.map_eq_some_iff.1 hx
  have hl : Lake.created.table.schema = Trades.schema := rfl
  obtain ⟨hlog, -, hnodup, -⟩ := refines_ledger "trades.trades" ⟨5⟩ hl List.nodup_nil hs
  exact ⟨s, hs, hsnap, hnodup, hlog⟩

end Writers
