import CryptoLakehouse.Lib.Machine
import CryptoLakehouse.Query.Backfill
import CryptoLakehouse.Query.Proof.Chunks

/-!
# Two writers of one table

`crypto-batcher` and `crypto-backfill --execute` on one table, as a machine. A write is cut where the
other writer can come between: its anti-join reads the table and its files are written (`probe`, or
`start` and `writeChunk`), and then the files are presented to the catalog, one turn of the commit
loop at a time (`commit`, `commitChunk`). Both writers may be killed and started again.

`Writer.since` is no part of the program: the rows that others committed since the writer's
anti-join read the table.
-/

namespace Writers

open Arrow Trades Sink Query Fallible

/-! ## States -/

/-- Files on their way to the table: `left` attempts after number `attempt`. -/
structure Pending where
  files : List DataFile
  left : Nat
  attempt : Nat

structure Writer where
  sink : IcebergSink
  pending : Option Pending
  since : List TradeRow

/-- A backfill under way, with the chunks it has yet to write. -/
structure Backfilling where
  writer : Writer
  chunks : List RecordBatch

structure State where
  lake : Lake
  batcher : Writer
  backfill : Option Backfilling

/-- A `crypto-backfill --execute` command line, and what the engine decides. -/
structure Command where
  ident : String
  cfg : IcebergConfig
  source : List TradeRow
  start : Int64
  stop : Int64
  marginDays : Int64
  chunkRows : Nat
  order : RowOrder
  exec : Execution

inductive Action
  /-- The batcher's `write_files`: anti-join and data files of a micro-batch. -/
  | probe (ops : WriteOps) (rows : List TradeEvent)
  /-- A turn of the batcher's commit loop. -/
  | commit (reply : CommitReply) (reloaded : Reply)
  /-- The batcher is killed and started again. -/
  | restart (ident : String) (cfg : IcebergConfig)
  /-- A backfill opens the table and runs its query. -/
  | start (cmd : Command)
  /-- The backfill writes the files of its next chunk. -/
  | writeChunk (ops : CommitOps)
  /-- A turn of its commit loop. -/
  | commitChunk (reply : CommitReply) (reloaded : Reply)
  /-- The backfill ends, or is killed. -/
  | exit

/-! ## One writer's part -/

def Pending.rows (p : Pending) : List TradeRow := p.files.flatMap (·.rows)

/-- The loop of `commit` before its first turn; without files there is nothing to commit. -/
def Pending.new (sink : IcebergSink) (files : List DataFile) : Option Pending :=
  if files.isEmpty then none else some ⟨files, max sink.cfg.commitRetries 1 - 1, 1⟩

/-- The catalog's answers to one turn. -/
def answering (reply : CommitReply) (reloaded : Reply) : CommitOps :=
  { CommitOps.allOk with commits := fun _ => reply, reloads := fun _ => reloaded }

def Pending.turn (p : Pending) (reply : CommitReply) (reloaded : Reply) : SinkM Bool :=
  commitTurn (answering reply reloaded) p.files p.left p.attempt

/-- After a turn: over, or one attempt fewer. -/
def Pending.next (p : Pending) : EStateM.Result Error World Bool → Option Pending
  | .ok false _ => some { p with left := p.left - 1, attempt := p.attempt + 1 }
  | _ => none

/-- The first half of `append_records`: binds a chunk and writes its files. -/
def chunkFiles (ops : CommitOps) (batch : RecordBatch) : SinkM (List DataFile) := do
  if batch.numRows = 0 then
    return []
  let bound ← ofExcept ((RecordBatch.tryNew (← arrowSchema) batch.columns).withContext
    "input batch does not match the destination schema")
  writeRecords ops bound

/-- The rows a table has gained. -/
def gained (l l' : Lake) : List TradeRow := l'.rows.drop l.rows.length

/-! ## Steps -/

def State.probe (s : State) (ops : WriteOps) (rows : List TradeEvent) : State :=
  match writeFiles ops rows ⟨s.batcher.sink, s.lake⟩ with
  | .ok (files, _) w => { s with lake := w.lake, batcher := ⟨w.sink, Pending.new w.sink files, []⟩ }
  | .error _ w => { s with lake := w.lake, batcher := ⟨w.sink, none, []⟩ }

def State.commit (s : State) (p : Pending) (reply : CommitReply) (reloaded : Reply) : State :=
  let r := p.turn reply reloaded ⟨s.batcher.sink, s.lake⟩
  { lake := (final r).lake
    batcher := ⟨(final r).sink, p.next r, s.batcher.since⟩
    backfill := s.backfill.map fun b =>
      { b with writer := { b.writer with since := b.writer.since ++ gained s.lake (final r).lake } } }

def State.restart (s : State) (ident : String) (cfg : IcebergConfig) : State :=
  let w := connect ident cfg s.lake
  { s with lake := w.lake, batcher := ⟨w.sink, none, []⟩ }

/-- The query reads the table as it is now; its output is cut into chunks, none if it fails. -/
def State.start (s : State) (cmd : Command) : State :=
  let w := connect cmd.ident cmd.cfg s.lake
  let rows := Backfill.candidateSql Backfill.widensNanos cmd.order cmd.source s.lake.rows cmd.start
    cmd.stop cmd.marginDays
  { s with
    lake := w.lake
    backfill := some ⟨⟨w.sink, none, []⟩,
      chunks w.sink.table.schema cmd.chunkRows (cmd.exec.stream rows)⟩ }

def State.writeChunk (s : State) (b : Backfilling) (c : RecordBatch) (cs : List RecordBatch)
    (ops : CommitOps) : State :=
  match chunkFiles ops c ⟨b.writer.sink, s.lake⟩ with
  | .ok files w => { s with
      lake := w.lake, backfill := some ⟨⟨w.sink, Pending.new w.sink files, b.writer.since⟩, cs⟩ }
  | .error _ w => { s with lake := w.lake, backfill := none }

def State.commitChunk (s : State) (b : Backfilling) (p : Pending) (reply : CommitReply)
    (reloaded : Reply) : State :=
  let r := p.turn reply reloaded ⟨b.writer.sink, s.lake⟩
  { lake := (final r).lake
    batcher := { s.batcher with since := s.batcher.since ++ gained s.lake (final r).lake }
    backfill := match r with
      | .ok _ w => some ⟨⟨w.sink, p.next r, b.writer.since⟩, b.chunks⟩
      | .error _ _ => none }

def step (s : State) : Action → Option State
  | .probe ops rows =>
    match s.batcher.pending with
    | none => some (s.probe ops rows)
    | some _ => none
  | .commit reply reloaded => s.batcher.pending.map fun p => s.commit p reply reloaded
  | .restart ident cfg => some (s.restart ident cfg)
  | .start cmd =>
    match s.backfill with
    | none => some (s.start cmd)
    | some _ => none
  | .writeChunk ops =>
    match s.backfill with
    | none => none
    | some b =>
      match b.writer.pending, b.chunks with
      | none, c :: cs => some (s.writeChunk b c cs ops)
      | _, _ => none
  | .commitChunk reply reloaded =>
    match s.backfill with
    | none => none
    | some b => b.writer.pending.map fun p => s.commitChunk b p reply reloaded
  | .exit => some { s with backfill := none }

/-- The batcher has connected to the table, and no backfill runs. -/
def State.init (ident : String) (cfg : IcebergConfig) (lake : Lake) : State :=
  let w := connect ident cfg lake
  ⟨w.lake, ⟨w.sink, none, []⟩, none⟩

/-! ## What a step can do -/

inductive Takes (s : State) : Action → State → Prop
  | probe {ops : WriteOps} {rows : List TradeEvent} (hp : s.batcher.pending = none) :
      Takes s (.probe ops rows) (s.probe ops rows)
  | commit {reply : CommitReply} {reloaded : Reply} {p : Pending}
      (hp : s.batcher.pending = some p) :
      Takes s (.commit reply reloaded) (s.commit p reply reloaded)
  | restart {ident : String} {cfg : IcebergConfig} :
      Takes s (.restart ident cfg) (s.restart ident cfg)
  | start {cmd : Command} (hb : s.backfill = none) : Takes s (.start cmd) (s.start cmd)
  | writeChunk {ops : CommitOps} {b : Backfilling} {c : RecordBatch} {cs : List RecordBatch}
      (hb : s.backfill = some b) (hp : b.writer.pending = none) (hc : b.chunks = c :: cs) :
      Takes s (.writeChunk ops) (s.writeChunk b c cs ops)
  | commitChunk {reply : CommitReply} {reloaded : Reply} {b : Backfilling} {p : Pending}
      (hb : s.backfill = some b) (hp : b.writer.pending = some p) :
      Takes s (.commitChunk reply reloaded) (s.commitChunk b p reply reloaded)
  | exit : Takes s .exit { s with backfill := none }

theorem step_takes {s s' : State} {a : Action} (h : step s a = some s') : Takes s a s' := by
  cases a with
  | probe ops rows =>
    simp only [step] at h
    split at h
    · cases h
      exact .probe ‹_›
    · cases h
  | commit reply reloaded =>
    obtain ⟨p, hp, rfl⟩ := Option.map_eq_some_iff.1 h
    exact .commit hp
  | restart ident cfg =>
    cases h
    exact .restart
  | start cmd =>
    simp only [step] at h
    split at h
    · cases h
      exact .start ‹_›
    · cases h
  | writeChunk ops =>
    simp only [step] at h
    split at h
    · cases h
    · split at h
      · cases h
        exact .writeChunk ‹_› ‹_› ‹_›
      · cases h
  | commitChunk reply reloaded =>
    simp only [step] at h
    split at h
    · cases h
    · obtain ⟨p, hp, rfl⟩ := Option.map_eq_some_iff.1 h
      exact .commitChunk ‹_› hp
  | exit =>
    cases h
    exact .exit

end Writers
