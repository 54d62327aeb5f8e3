import CryptoLakehouse.Batcher.Accumulator
import CryptoLakehouse.Lib.Machine
import CryptoLakehouse.Sink.Write

/-!
# The pipeline

One stream of messages, one consumer of it, and the batcher process that moves the messages' rows
to the table: `State` and `step`. A step is a delivery, one turn of the batch loop, the end of a
`write_batch`, the end of one ack, or something from outside (a crash and restart, a commit of
another writer). Whatever the outside decides comes with the action: which message is delivered,
the readings of the clock, how the operations of a write and the acks end.

The flush of a micro-batch is cut at its waits: `flushing` (the batch is taken, the write runs) and
`acking` (the write is committed, the acks run, at most `maxAcksInFlight` at once).
-/

namespace Batcher

open Trades Sink Fallible

/-- Cumulative process counters. -/
structure Stats where
  batches : Nat
  rows : Nat
  files : Nat
  bytes : Nat
  duplicatesDropped : Nat
  failedCommits : Nat
  ackFailures : Nat
  probeFilesOpened : Nat
  tableFilesSeen : Nat

def Stats.default : Stats := ⟨0, 0, 0, 0, 0, 0, 0, 0, 0⟩

structure Config where
  policy : BatchConfig
  ident : String
  iceberg : IcebergConfig

/-- Where the batch loop is. -/
inductive Phase
  /-- In `select!`. -/
  | waiting
  /-- In `write_batch`. -/
  | flushing (batch : MicroBatch)
  /-- The batch is committed; the acks that have not ended yet. -/
  | acking (batch : MicroBatch) (written : WriteStats) (pending : List Ack) (ackFailures : Nat)
  /-- `run` has returned. -/
  | stopped

/-- What has happened so far, for statements about runs. -/
structure History where
  /-- The deliveries whose ack was invoked. -/
  invoked : List Message
  /-- The handles of the batches whose `write_batch` returned `Err`. -/
  failed : List Ack
  /-- The rows of the batches whose `write_batch` returned `Ok`. -/
  committed : List (List TradeEvent)

structure State where
  /-- The messages the consumer has seen acked. -/
  acked : List Nat
  /-- How many deliveries there have been. -/
  deliveries : Nat
  channel : List Envelope
  /-- The pull loop has returned. -/
  sourceStopped : Bool
  acc : Accumulator
  phase : Phase
  stats : Stats
  world : World
  history : History

inductive Action
  /-- The consumer delivers a message; the end of its ack, should it be acked at once. -/
  | deliver (seq : Nat) (reply : Reply)
  /-- The loop receives the next envelope: the three readings of the clock. -/
  | recv (seen now flushNow : Instant)
  /-- The age timer fires. -/
  | due (now : Instant)
  /-- A shutdown signal, or the channel is closed. -/
  | stop
  /-- The write of the taken batch ends. -/
  | write (ops : WriteOps)
  /-- The ack of the `i`-th pending handle ends. -/
  | ack (i : Nat) (reply : Reply)
  /-- The process dies and is started again. -/
  | crash
  /-- Another writer commits. -/
  | foreign (files : List DataFile)

/-- `buffer_unordered(64)`. -/
def maxAcksInFlight : Nat := 64

/-! ## The parts of a step -/

/-- `Ack::ack`: the end of one ack. -/
def Ack.ack (reply : Reply) : Ack → Except Error Unit
  | .nats _ => reply.mapError fun e => .msg s!"nats ack failed: {e}"
  | .counter _ => .ok ()
  | .none => .ok ()

/-- What an ack does upstream. -/
def State.invoke (s : State) (reply : Reply) : Ack → State
  | .nats msg =>
    { s with
      acked := if reply = .ok () then s.acked ++ [msg.seq] else s.acked
      history := { s.history with invoked := s.history.invoked ++ [msg] } }
  | .counter _ => s
  | .none => s

/-- The decoded envelope of a delivery. -/
def processMessage (decode : List UInt8 → Option TradeEvent) (msg : Message) : Option Envelope :=
  (decode msg.payload).map fun event => ⟨event, msg.payload.length, .nats msg⟩

/-- Where `run` goes on after a flush: a `Shutdown` flush is its last. -/
def Phase.next (trigger : FlushTrigger) : Phase :=
  match trigger with
  | .shutdown => stopped
  | .count => waiting
  | .bytes => waiting
  | .interval => waiting

/-- The start of `flush`: takes the batch. -/
def State.flush (s : State) (trigger : FlushTrigger) : State :=
  let (batch, acc) := s.acc.take trigger
  if batch.isEmpty then { s with acc, phase := .next trigger }
  else
    { s with
      acc
      phase := .flushing batch
      stats := { s.stats with
        duplicatesDropped := s.stats.duplicatesDropped + batch.duplicatesDropped } }

/-- The counters after the last ack of a batch. -/
def Stats.flushed (stats : Stats) (written : WriteStats) (ackFailures : Nat) : Stats :=
  { stats with
    batches := stats.batches + 1
    rows := stats.rows + written.rows
    files := stats.files + written.files
    bytes := stats.bytes + written.bytes
    ackFailures := stats.ackFailures + ackFailures
    probeFilesOpened := stats.probeFilesOpened + written.probe.filesOpened
    tableFilesSeen := stats.tableFilesSeen + written.probe.dataFiles }

/-- The acks of a committed batch go on, or the flush ends. -/
def State.acking (s : State) (batch : MicroBatch) (written : WriteStats) (pending : List Ack)
    (ackFailures : Nat) : State :=
  if pending.isEmpty then
    { s with phase := .next batch.trigger, stats := s.stats.flushed written ackFailures }
  else { s with phase := .acking batch written pending ackFailures }

/-- The end of `write_batch`: a failed batch is let go of, with its handles. -/
def State.written (s : State) (batch : MicroBatch) (ops : WriteOps) : State :=
  match writeBatch ops batch.rows s.world with
  | .ok written world =>
    { s with
      world
      history := { s.history with committed := s.history.committed ++ [batch.rows] } }.acking
      batch written batch.acks 0
  | .error _ world =>
    { s with
      world
      phase := .next batch.trigger
      stats := { s.stats with failedCommits := s.stats.failedCommits + 1 }
      history := { s.history with failed := s.history.failed ++ batch.acks } }

/-- A new process on the table as it is. The consumer and the table are what survives. -/
def State.restart (cfg : Config) (s : State) : State :=
  { s with
    channel := []
    sourceStopped := false
    acc := .new cfg.policy
    phase := .waiting
    stats := .default
    world := connect cfg.ident cfg.iceberg s.world.lake }

/-- The first process, on a table. -/
def State.start (cfg : Config) (lake : Lake) : State where
  acked := []
  deliveries := 0
  channel := []
  sourceStopped := false
  acc := .new cfg.policy
  phase := .waiting
  stats := .default
  world := connect cfg.ident cfg.iceberg lake
  history := ⟨[], [], []⟩

/-- A delivery: to the channel, or acked at once when the payload does not decode. -/
def State.deliver (decode : List UInt8 → Option TradeEvent) (s : State) (msg : Message)
    (reply : Reply) : State :=
  let s := { s with deliveries := s.deliveries + 1 }
  match processMessage decode msg with
  | none => s.invoke reply (.nats msg)
  | some envelope =>
    match s.phase with
    | .stopped => { s with sourceStopped := true }
    | _ => { s with channel := s.channel ++ [envelope] }

/-! ## The step -/

/-- One step: `decode` reads a payload, `stream` holds the payloads by sequence number. -/
def step (cfg : Config) (decode : List UInt8 → Option TradeEvent) (stream : Nat → List UInt8)
    (s : State) : Action → Option State
  | .deliver seq reply =>
    if seq ∉ s.acked ∧ s.sourceStopped = false ∧ s.channel.length < max cfg.policy.maxRecords 1 then
      some (s.deliver decode ⟨seq, s.deliveries, stream seq⟩ reply)
    else none
  | .recv seen now flushNow =>
    match s.phase, s.channel with
    | .waiting, envelope :: channel =>
      let (full, acc) := s.acc.push envelope seen now
      let s := { s with acc, channel }
      some (if full then s.flush ((acc.triggerNow flushNow).getD .bytes) else s)
    | _, _ => none
  | .due now =>
    match s.phase with
    | .waiting => if s.acc.timeToFlush now = some 0 then some (s.flush .interval) else none
    | _ => none
  | .stop =>
    match s.phase with
    | .waiting => some (s.flush .shutdown)
    | _ => none
  | .write ops =>
    match s.phase with
    | .flushing batch => some (s.written batch ops)
    | _ => none
  | .ack i reply =>
    match s.phase with
    | .acking batch written pending ackFailures =>
      if i < maxAcksInFlight then
        pending[i]?.map fun ack =>
          (s.invoke reply ack).acking batch written (pending.eraseIdx i)
            (if (ack.ack reply).isOk then ackFailures else ackFailures + 1)
      else none
    | _ => none
  | .crash => some (s.restart cfg)
  | .foreign files =>
    if ∀ f ∈ files, f.path.uuid ≠ s.world.sink.fileNameGen.uuid then
      some { s with world := { s.world with lake := s.world.lake.append files } }
    else none

/-! ## What a step can do -/

section
variable (cfg : Config) (decode : List UInt8 → Option TradeEvent) (stream : Nat → List UInt8)

/-- The steps by what they do: `recv` with and without a flush, `due` and `stop` as one flush. -/
inductive Takes (s : State) : Action → State → Prop
  | deliver {seq : Nat} {reply : Reply} (h : seq ∉ s.acked) :
      Takes s (.deliver seq reply) (s.deliver decode ⟨seq, s.deliveries, stream seq⟩ reply)
  | recv {seen now flushNow : Instant} {envelope : Envelope} {channel : List Envelope}
      (hp : s.phase = .waiting) (hc : s.channel = envelope :: channel) :
      Takes s (.recv seen now flushNow) { s with channel, acc := (s.acc.push envelope seen now).2 }
  | recvFull {seen now flushNow : Instant} {envelope : Envelope} {channel : List Envelope}
      (hp : s.phase = .waiting) (hc : s.channel = envelope :: channel) (trigger : FlushTrigger) :
      Takes s (.recv seen now flushNow)
        (State.flush { s with channel, acc := (s.acc.push envelope seen now).2 } trigger)
  | flush {a : Action} (hp : s.phase = .waiting) (trigger : FlushTrigger) :
      Takes s a (s.flush trigger)
  | write {ops : WriteOps} {batch : MicroBatch} (hb : s.phase = .flushing batch) :
      Takes s (.write ops) (s.written batch ops)
  | ack {i : Nat} {reply : Reply} {batch : MicroBatch} {written : WriteStats} {pending : List Ack}
      {n : Nat} {ack : Ack} (hp : s.phase = .acking batch written pending n)
      (hi : pending[i]? = some ack) (n' : Nat) :
      Takes s (.ack i reply) ((s.invoke reply ack).acking batch written (pending.eraseIdx i) n')
  | crash : Takes s .crash (s.restart cfg)
  | foreign {files : List DataFile}
      (hf : ∀ f ∈ files, f.path.uuid ≠ s.world.sink.fileNameGen.uuid) :
      Takes s (.foreign files)
        { s with world := { s.world with lake := s.world.lake.append files } }

variable {cfg decode stream} {s s' : State} {a : Action}

theorem step_takes (h : step cfg decode stream s a = some s') :
    Takes cfg decode stream s a s' := by
  cases a with
  | deliver seq reply =>
    simp only [step] at h
    split at h
    · rename_i hen
      cases h
      exact .deliver hen.1
    · cases h
  | recv seen now flushNow =>
    simp only [step] at h
    split at h
    · rename_i envelope channel hp hc
      cases h
      split
      · exact .recvFull hp hc _
      · exact .recv hp hc
    · cases h
  | due now =>
    simp only [step] at h
    split at h
    · split at h
      · cases h
        exact .flush ‹_› _
      · cases h
    · cases h
  | stop =>
    simp only [step] at h
    split at h
    · cases h
      exact .flush ‹_› _
    · cases h
  | write ops =>
    simp only [step] at h
    split at h
    · cases h
      exact .write ‹_›
    · cases h
  | ack i reply =>
    simp only [step] at h
    split at h
    · split at h
      · obtain ⟨ack, hi, rfl⟩ := Option.map_eq_some_iff.1 h
        exact .ack ‹_› hi _
      · cases h
    · cases h
  | crash =>
    cases h
    exact .crash
  | foreign files =>
    simp only [step] at h
    split at h
    · cases h
      exact .foreign ‹_›
    · cases h

end

end Batcher
