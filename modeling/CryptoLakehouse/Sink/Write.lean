import Mathlib.Algebra.GroupWithZero.Nat
import CryptoLakehouse.Sink.World

/-!
# Writing and committing

`writeBatch` writes one micro-batch of events and commits it as one snapshot: to a record batch,
anti-joined against the committed rows of its `(exchange, trade_ts)` ranges (`dedupedBatch`), to
data files (`writeRecords`), to a `fast_append` with retries (`commit`). `appendRecords` is the
same without the anti-join, for batches that are already in the table's schema.
-/

namespace Sink

open Arrow Trades Fallible

/-! ## What the outside decides -/

/-- How a commit request ends: applied; refused, with the table as before; or applied with the
answer lost. -/
inductive CommitReply
  | applied
  | refused (why : String)
  | lost (why : String)
deriving DecidableEq

def partitionOf (r : TradeRow) : Partition :=
  ⟨r.exchange, r.tradeTs.map fun t => t.divEuclid microsPerDay⟩

/-- How the partition splitter and the rolling writer cut rows into files: partition, rows and
size of each. No row is lost or repeated, and no file is empty. -/
structure PartitionWriter where
  split : List TradeRow → List (Partition × List TradeRow × Nat)
  perm : ∀ rows, ((split rows).flatMap fun p => p.2.1).Perm rows
  ne_nil : ∀ rows, ∀ p ∈ split rows, p.2.1 ≠ []

/-- Every row in a file of its own. -/
def PartitionWriter.rowByRow : PartitionWriter where
  split rows := rows.map fun r => (partitionOf r, [r], 1)
  perm rows := by simp [List.flatMap_map]
  ne_nil rows p hp := by
    obtain ⟨r, -, rfl⟩ := List.mem_map.1 hp
    exact List.cons_ne_nil _ _

/-- A table of its own schema that holds the rows, each in a file of its own. -/
def Lake.holding (rows : List TradeRow) : Lake :=
  Lake.created.append (rows.mapIdx fun i r => ⟨⟨0, i⟩, partitionOf r, [r], 1⟩)

structure CommitOps where
  writeRecords : Reply
  writer : PartitionWriter
  /-- The end of the n-th commit request of the call, from 1. -/
  commits : Nat → CommitReply
  /-- The answer to the metadata reload after the n-th request. -/
  reloads : Nat → Reply

structure FileScanTask where
  dataFilePath : String
  fileSizeInBytes : Nat

structure WriteOps extends CommitOps where
  hashOrder : HashOrder
  /-- The table load for the probe statistics: `total-data-files` of the snapshot summary. -/
  loadTable : Except String (Option Nat)
  /-- Planning the files that the pruning predicate selects. -/
  planFiles : Except String (List FileScanTask)
  /-- Planning the filtered scan of `icetbl`. -/
  planProbe : Reply
  /-- Planning the anti-join. -/
  planJoin : Reply
  /-- Executing the anti-join. -/
  collect : Reply

/-- Nothing fails. -/
def CommitOps.allOk : CommitOps := ⟨.ok (), .rowByRow, fun _ => .applied, fun _ => .ok ()⟩

/-- Nothing fails. -/
def WriteOps.allOk : WriteOps :=
  { CommitOps.allOk with
    hashOrder := .inserted, loadTable := .ok none, planFiles := .ok [], planProbe := .ok (),
    planJoin := .ok (), collect := .ok () }

/-- No operation of the probe and the anti-join fails. -/
def WriteOps.ProbeOk (ops : WriteOps) : Prop :=
  (∃ n, ops.loadTable = .ok n) ∧ (∃ tasks, ops.planFiles = .ok tasks) ∧ ops.planProbe = .ok () ∧
    ops.planJoin = .ok () ∧ ops.collect = .ok ()

instance instDecidableProbeOk (ops : WriteOps) : Decidable ops.ProbeOk :=
  inferInstanceAs (Decidable (_ ∧ _ ∧ _ ∧ _ ∧ _))

theorem WriteOps.probeOk_allOk : WriteOps.allOk.ProbeOk :=
  ⟨⟨none, rfl⟩, ⟨[], rfl⟩, rfl, rfl, rfl⟩

structure ProbeStats where
  filesOpened : Nat
  partitionsOpened : Nat
  bytesOpened : Nat
  dataFiles : Nat
deriving DecidableEq

structure WriteStats where
  rows : Nat
  files : Nat
  partitions : Nat
  bytes : Nat
  probe : ProbeStats
deriving DecidableEq

structure AppendStats where
  rows : Nat
  files : Nat
  partitions : Nat
  bytes : Nat
deriving DecidableEq

/-! ## The session -/

def registerBatch (name : String) (batch : RecordBatch) : SinkM Unit := do
  let w ← get
  let ctx ← ofExcept (w.sink.ctx.register name (.memory batch))
  set { w with sink := { w.sink with ctx } }

def deregisterTable (name : String) : SinkM Unit :=
  modify fun w => { w with sink := { w.sink with ctx := w.sink.ctx.deregister name } }

/-- The registered table of a name. -/
def table (name : String) : SinkM Provider := do
  ofExcept ((← get).sink.ctx.lookup name)

/-! ## The dedup probe -/

/-- The rows of a table of this schema that satisfy a predicate. -/
def scan (schema : Schema) (pruning : Expr) (rows : List TradeRow) : List TradeRow :=
  match schema.find? (·.name == "trade_ts") with
  | some ⟨_, .timestamp unit tz, _⟩ =>
    rows.filter fun r => pruning.eval (rowCell unit tz r) == some true
  | _ => []

/-- The partition directories of a data file path. -/
def partitionDirs (path : String) : String :=
  "/".intercalate ((path.splitOn "/").filter (·.contains '='))

def probeStats (ops : WriteOps) (_pruning : Expr) : SinkM ProbeStats := do
  let totalDataFiles ← answerContext ops.loadTable "failed to load table for probe statistics"
  let tasks ← answer (ops.planFiles)
  return {
    filesOpened := tasks.length
    partitionsOpened := (tasks.map fun t => partitionDirs t.dataFilePath).dedup.length
    bytesOpened := (tasks.map (·.fileSizeInBytes)).sum
    dataFiles := totalDataFiles.getD 0 }

/-- The probe side of the anti-join: `icetbl` filtered by the pruning predicate, not yet run. -/
def dedupProbe (ops : WriteOps) (incoming : RecordBatch) (schema : Schema) :
    SinkM (Provider × Expr × ProbeStats) := do
  let pruning ← ofExcept (buildPruningExpr ops.hashOrder incoming schema)
  let probe ← probeStats ops pruning
  let icetbl ← table "icetbl"
  answer ops.planProbe
  return (icetbl, pruning, probe)

/-- The rows a provider yields right now. -/
def providerRows (p : Provider) : SinkM (List TradeRow) := do
  match p with
  | .iceberg => return (← get).lake.rows
  | .memory batch => return trades batch

/-- `LEFT ANTI JOIN` on `(exchange, symbol, trade_id)`. -/
def leftAnti (incoming : RecordBatch) (cand : List TradeRow) : RecordBatch :=
  incoming.filter fun r =>
    !Keyed.matched TradeRow.key TradeRow.key cand (TradeRow.read incoming.schema r)

/-- The rows of `incoming` that the table does not hold in the ranges of `incoming`. -/
def dedupedBatch (ops : WriteOps) (incoming : RecordBatch) (schema : Schema) :
    SinkM (List RecordBatch × ProbeStats) := do
  registerBatch "incoming" incoming
  let (icetbl, pruning, probe) ← dedupProbe ops incoming schema
  let left ← table "incoming"
  answer ops.planJoin
  answer ops.collect
  let cand := scan schema pruning (← providerRows icetbl)
  let out := match left with
    | .memory batch => [leftAnti batch cand]
    | .iceberg => []
  deregisterTable "incoming"
  return (out, probe)

/-! ## Files -/

/-- Names for the files of one write, the counter going on from the last write. -/
def nameFiles (gen : FileNameGen) (parts : List (Partition × List TradeRow × Nat)) :
    List DataFile :=
  parts.mapIdx fun i p => ⟨⟨gen.uuid, gen.next + i⟩, p.1, p.2.1, p.2.2⟩

/-- Writes one batch out as files by partition. Nothing is committed. On a day past the range of
iceberg's day transform the program panics here; that is the end of the process, and no answer. -/
def writeRecords (ops : CommitOps) (batch : RecordBatch) : SinkM (List DataFile) := do
  let w ← get
  let gen := w.sink.fileNameGen
  let files := nameFiles gen (ops.writer.split (trades batch))
  set { w with sink := { w.sink with fileNameGen := ⟨gen.uuid, gen.next + files.length⟩ } }
  answerContext ops.writeRecords "failed to write partition rows"
  return files

/-- The schema the table's batches have to match. -/
def arrowSchema : SinkM Schema := return (← get).sink.table.schema

def writeFiles (ops : WriteOps) (rows : List TradeEvent) :
    SinkM (List DataFile × ProbeStats) := do
  let schema ← arrowSchema
  let batch ← ofExcept (toRecordBatch schema rows)
  let (remaining, probe) ← dedupedBatch ops batch schema
  let deduped ← ofExcept (RecordBatch.concatBatches schema remaining)
  return (← writeRecords ops.toCommitOps deduped, probe)

/-! ## Commits -/

/-- `reload`: adopts the catalog's metadata. -/
def reload (reply : Reply) : SinkM Unit := do
  let w ← get
  answerContext reply s!"failed to reload table {w.sink.ident}"
  set { w with sink := { w.sink with table := w.lake.table } }

/-- One `fast_append`. A data file that the current snapshot references already is refused. -/
def commitOnce (reply : CommitReply) (dataFiles : List DataFile) : SinkM Table := do
  let w ← get
  let text := s!"failed to commit snapshot to {w.sink.ident}"
  if dataFiles.any fun f => w.lake.table.files.any fun g => g.path == f.path then
    throw (.context text (.external "Cannot add files that are already referenced by table"))
  match reply with
  | .applied =>
    let lake := w.lake.append dataFiles
    set { w with lake }
    return lake.table
  | .refused why => throw (.context text (.external why))
  | .lost why =>
    set { w with lake := w.lake.append dataFiles }
    throw (.context text (.external why))

/-- One turn of the commit loop, with `left` attempts left after this one: whether the loop is
over. -/
def commitTurn (ops : CommitOps) (dataFiles : List DataFile) (left attempt : Nat) :
    SinkM Bool := do
  match ← observe (commitOnce (ops.commits attempt) dataFiles) with
  | .ok table =>
    modify fun w => { w with sink := { w.sink with table } }
    return true
  | .error err =>
    if left = 0 then
      let orphaned := dataFiles.length
      throw (.context
        s!"iceberg commit failed after {attempt} attempts ({orphaned} data files orphaned)" err)
    reload (ops.reloads attempt)
    return false

/-- The turns from attempt number `attempt` on. -/
def commitLoop (ops : CommitOps) (dataFiles : List DataFile) : Nat → Nat → SinkM Unit
  | 0, attempt => do
    let _ ← commitTurn ops dataFiles 0 attempt
  | left + 1, attempt => do
    if ← commitTurn ops dataFiles (left + 1) attempt then
      return ()
    commitLoop ops dataFiles left (attempt + 1)

/-- Commits the files as one snapshot, in at most `max(commit_retries, 1)` attempts. -/
def commit (ops : CommitOps) (dataFiles : List DataFile) : SinkM Unit := do
  if dataFiles.isEmpty then
    return ()
  commitLoop ops dataFiles (max (← get).sink.cfg.commitRetries 1 - 1) 1

/-! ## The two ways in -/

/-- Writes all rows of one micro-batch and commits them as one snapshot. -/
def writeBatch (ops : WriteOps) (rows : List TradeEvent) : SinkM WriteStats := do
  if rows.isEmpty then
    return ⟨0, 0, 0, 0, ⟨0, 0, 0, 0⟩⟩
  let (dataFiles, probe) ← writeFiles ops rows
  commit ops.toCommitOps dataFiles
  return {
    rows := rows.length
    files := dataFiles.length
    partitions := (dataFiles.map (·.partition)).dedup.length
    bytes := (dataFiles.map (·.fileSizeInBytes)).sum
    probe }

/-- Writes rows that are already arrow batches and commits them as one snapshot. -/
def appendRecords (ops : CommitOps) (batch : RecordBatch) : SinkM AppendStats := do
  if batch.numRows = 0 then
    return ⟨0, 0, 0, 0⟩
  let bound ← ofExcept ((RecordBatch.tryNew (← arrowSchema) batch.columns).withContext
    "input batch does not match the destination schema")
  let dataFiles ← writeRecords ops bound
  commit ops dataFiles
  return {
    rows := batch.numRows
    files := dataFiles.length
    partitions := (dataFiles.map (·.partition)).dedup.length
    bytes := (dataFiles.map (·.fileSizeInBytes)).sum }

end Sink
