import CryptoLakehouse.Sink.Write

/-!
# Appending query output

`streamInto` writes the output of a query to a table with the batcher's own writer: every batch is
bound to the destination's schema, and each chunk of at least `chunkRows` buffered rows is one
commit. What the query yields, batch by batch and possibly ending in an error, is an argument.

`ensureVisible` reads a `trade_ts` range back through the table's partitions (`readRange`), as a
check of what was written.
-/

namespace Query

open Arrow Trades Sink Fallible

/-! ## Streaming -/

/-- What the outside decides during a `stream_into`. -/
structure StreamOps where
  plan : Reply
  start : Reply
  /-- The operations of the n-th chunk, from 0. -/
  chunks : Nat → CommitOps

/-- Nothing fails. -/
def StreamOps.allOk : StreamOps := ⟨.ok (), .ok (), fun _ => .allOk⟩

/-- The query's output, as it arrives. -/
abbrev Stream := List (Except String RecordBatch)

/-- The locals of the loop. -/
structure Buffered where
  buffer : List RecordBatch
  buffered : Nat
  chunks : Nat
  written : Nat

def Buffered.empty : Buffered := ⟨[], 0, 0, 0⟩

/-- Commits what is buffered as one snapshot. -/
def flush (ops : CommitOps) (buffer : List RecordBatch) : SinkM Nat := do
  match buffer with
  | [] => throw (.panic "index out of bounds: the len is 0 but the index is 0")
  | b :: _ =>
    let batch ← ofExcept (RecordBatch.concatBatches b.schema buffer)
    let stats ← appendRecords ops batch
    return stats.rows

/-- The loop of `stream_into`, and what follows it. -/
def streamFrom (ops : StreamOps) (schema : Schema) (chunkRows : Nat) :
    Stream → Buffered → SinkM Nat
  | [], s =>
    if 0 < s.buffered then do
      return s.written + (← flush (ops.chunks s.chunks) s.buffer)
    else return s.written
  | item :: items, s => do
    let batch ← answerContext item "append query failed"
    let bound ← ofExcept ((RecordBatch.tryNew schema batch.columns).withContext
      "query output does not match the destination schema")
    let buffer := s.buffer ++ [bound]
    let buffered := s.buffered + batch.numRows
    if chunkRows ≤ buffered then do
      let rows ← flush (ops.chunks s.chunks) buffer
      streamFrom ops schema chunkRows items ⟨[], 0, s.chunks + 1, s.written + rows⟩
    else streamFrom ops schema chunkRows items ⟨buffer, buffered, s.chunks, s.written⟩

/-- Streams a query into the sink's table, committing `chunkRows` at a time; the rows written. -/
def streamInto (ops : StreamOps) (stream : Stream) (chunkRows : Nat) : SinkM Nat := do
  let schema ← arrowSchema
  answerContext ops.plan "failed to plan the append query"
  answerContext ops.start "failed to start the append query"
  streamFrom ops schema chunkRows stream .empty

/-! ## Reading back -/

/-- `trade_ts >= start AND trade_ts < end`; a NULL `trade_ts` is in no range. -/
def inRange (start stop : Int64) (r : TradeRow) : Bool :=
  r.tradeTs.any fun t => start ≤ t && t < stop

/-- Whether a partition may hold rows of a range, by its day. -/
def mayHold (start stop : Int64) (p : Partition) : Bool :=
  p.tradeTsDay.any fun day =>
    start.divEuclid microsPerDay ≤ day && day.toInt * microsPerDay.toInt < stop.toInt

/-- A range read: the files of the partitions that may hold the range, and the range's rows in
them. -/
def readRange (start stop : Int64) (files : List DataFile) : List TradeRow :=
  ((files.filter fun f => mayHold start stop f.partition).flatMap (·.rows)).filter
    (inRange start stop)

/-- Reads `[start, stop)` back and refuses to pass a write that left rows behind. -/
def ensureVisible (plan collect : Reply) (table : Table) (start stop : Int64) (written : Nat) :
    Except Error Nat := do
  if let .error e := plan then
    throw (.context "failed to plan the verification read" (.external e))
  if let .error e := collect then
    throw (.context "failed to read the range back" (.external e))
  let visible := (readRange start stop table.files).length
  if visible < written then
    throw (.msg (s!"only {visible} of {written} written rows are readable in the range, so some " ++
      "are filed under partition values a pruned read cannot find — audit the table before " ++
      "trusting it"))
  return visible

end Query
