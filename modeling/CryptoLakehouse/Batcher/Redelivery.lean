import CryptoLakehouse.Batcher.Source

/-!
# The redelivery timer

`Source` in time: the consumer delivers a message again once `ack_wait` has passed since it delivered
it last. Time passes only while everything waits: the pull loop for the consumer, for room in the
channel or for its sleep to end, and the batch loop for an envelope, for its timer, or for a flush to
end. A flush ends in time: the write, its acks, and the pause after a failed write together take no
longer than `flushTime`. The way of a message to the process and the ack of a payload that does not
decode take no time.
-/

namespace Batcher.Redelivery

open Trades

structure Config where
  source : Source.Config
  /-- The longest a flush takes. -/
  flushTime : Nat
  /-- The `ack_wait` of the consumer. -/
  ackWait : Nat

structure State where
  source : Source.State
  /-- The clock, in nanoseconds. -/
  now : Nat
  /-- When the last batch was taken. -/
  takenAt : Nat
  /-- When a delivery arrived, by its number. -/
  deliveredAt : Nat → Nat
  /-- When a message was delivered last. -/
  lastDelivered : Nat → Option Nat

inductive Action
  /-- Time passes. -/
  | tick (d : Nat)
  | step (a : Source.Action)

/-! ## What waits -/

section
variable (cfg : Config) (s : State)

/-- The pull loop has nothing to do. -/
def State.PullWaits : Prop :=
  match s.source.puller with
  | .fetching => True
  | .draining d => d.arrived.isEmpty = true ∧ d.ended = false
  | .acking _ _ => False
  | .sending _ _ => cfg.source.capacity ≤ s.source.loop.channel.length
  | .sleeping => True
  | .returned => True

/-- The batch loop has nothing to do for so long. -/
def State.LoopWaits (d : Nat) : Prop :=
  match s.source.loop.phase with
  | .waiting => s.source.loop.channel.isEmpty = true ∧
      ∀ left ∈ s.source.loop.acc.timeToFlush s.now, d ≤ left
  | .flushing _ => s.now + d ≤ s.takenAt + cfg.flushTime
  | .acking _ _ _ _ => s.now + d ≤ s.takenAt + cfg.flushTime
  | .stopped => False

/-- A step reads the clock, and no message is delivered again before its time. -/
def State.Punctual : Source.Action → Prop
  | .arrive seq => ∀ t ∈ s.lastDelivered seq, t + cfg.ackWait ≤ s.now
  | .loop (.recv seen now flushNow) => seen = s.now ∧ now = s.now ∧ flushNow = s.now
  | .loop (.due now) => now = s.now
  | _ => True

instance instDecidablePullWaits : Decidable (s.PullWaits cfg) := by
  unfold State.PullWaits
  split <;> infer_instance

instance instDecidableLoopWaits (d : Nat) : Decidable (s.LoopWaits cfg d) := by
  unfold State.LoopWaits
  split <;> infer_instance

instance instDecidablePunctual (a : Source.Action) : Decidable (s.Punctual cfg a) := by
  unfold State.Punctual
  split <;> infer_instance

end

/-! ## The step -/

/-- A write is under way. -/
def flushing (s : Source.State) : Bool :=
  match s.loop.phase with
  | .waiting => false
  | .flushing _ => true
  | .acking _ _ _ _ => false
  | .stopped => false

/-- The clocks after a step of the source. -/
def State.after (s : State) (source : Source.State) (a : Source.Action) : State :=
  let taken := if flushing source && !flushing s.source then s.now else s.takenAt
  match a with
  | .arrive seq =>
    { source
      now := s.now
      takenAt := taken
      deliveredAt := Function.update s.deliveredAt s.source.loop.deliveries s.now
      lastDelivered := Function.update s.lastDelivered seq (some s.now) }
  | _ => { s with source, takenAt := taken }

/-- One step. -/
def step (cfg : Config) (decode : List UInt8 → Option TradeEvent)
    (stream : Nat → Option (List UInt8)) (s : State) : Action → Option State
  | .tick d =>
    if s.PullWaits cfg ∧ s.LoopWaits cfg d then some { s with now := s.now + d } else none
  | .step a =>
    if s.Punctual cfg a then
      (Source.step cfg.source decode stream s.source a).map fun source => s.after source a
    else none

/-- The first process, on a table and a consumer that has delivered nothing. -/
def State.start (cfg : Config) (lake : Sink.Lake) : State where
  source := .start cfg.source lake
  now := 0
  takenAt := 0
  deliveredAt _ := 0
  lastDelivered _ := none

end Batcher.Redelivery
