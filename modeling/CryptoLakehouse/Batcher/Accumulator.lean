import Mathlib.Data.Finset.Insert
import Mathlib.Data.Finset.Dedup
import CryptoLakehouse.Schema

/-!
# The accumulator

`Accumulator` buffers decoded rows with the handles that acknowledge them, and decides when the
micro-batch is complete. Its dedup set describes exactly the buffered rows (`seen`), and with dedup
on the buffered rows have distinct keys (`distinct`), by construction.

* `push_acks`, `push_rows` — a push keeps every handle, and drops the row only when a buffered row
  has its key.
* `mem_keys_push` — a pushed event's key is buffered afterwards, whichever way the push went.
-/

namespace Batcher

open Trades

/-- Time, in nanoseconds. -/
abbrev Instant := Nat

structure BatchConfig where
  maxRecords : Nat
  maxBytes : Nat
  flushInterval : Nat
  dedup : Bool

/-- One delivery of one message of the stream. -/
structure Message where
  seq : Nat
  delivery : Nat
  payload : List UInt8
deriving DecidableEq

/-- Proof that a row can be removed from the source. -/
inductive Ack
  | nats (msg : Message)
  /-- Test hook: counts successful acks. -/
  | counter (id : Nat)
  /-- A synthetic row. -/
  | none
deriving DecidableEq

/-- One decoded trade and the handle that acknowledges it upstream. -/
structure Envelope where
  event : TradeEvent
  /-- Encoded payload size. -/
  bytes : Nat
  ack : Ack

/-- Why a micro-batch was closed. -/
inductive FlushTrigger
  | count | bytes | interval | shutdown
deriving DecidableEq, Repr

/-- One group of rows that becomes one snapshot. -/
structure MicroBatch where
  rows : List TradeEvent
  acks : List Ack
  trigger : FlushTrigger
  duplicatesDropped : Nat
  bufferedBytes : Nat

def MicroBatch.isEmpty (b : MicroBatch) : Bool := b.rows.isEmpty

structure Accumulator where
  policy : BatchConfig
  rows : List TradeEvent
  acks : List Ack
  seenKeys : Finset Key
  bytes : Nat
  duplicates : Nat
  firstSeen : Option Instant
  seen : policy.dedup = true → seenKeys = (rows.map TradeEvent.key).toFinset
  distinct : policy.dedup = true → (rows.map TradeEvent.key).Nodup

namespace Accumulator

def new (policy : BatchConfig) : Accumulator where
  policy
  rows := []
  acks := []
  seenKeys := ∅
  bytes := 0
  duplicates := 0
  firstSeen := none
  seen _ := rfl
  distinct _ := List.nodup_nil

def isEmpty (acc : Accumulator) : Bool := acc.rows.isEmpty

/-- Time left before the age trigger fires. -/
def timeToFlush (acc : Accumulator) (now : Instant) : Option Nat :=
  acc.firstSeen.map fun t => acc.policy.flushInterval - (now - t)

def ageExceeded (acc : Accumulator) (now : Instant) : Bool :=
  (acc.timeToFlush now).any (· == 0)

/-- Which trigger would fire now: count before bytes before interval. -/
def triggerNow (acc : Accumulator) (now : Instant) : Option FlushTrigger :=
  if acc.isEmpty then none
  else if acc.policy.maxRecords ≤ acc.rows.length then some .count
  else if acc.policy.maxBytes ≤ acc.bytes then some .bytes
  else if acc.ageExceeded now then some .interval
  else none

def due (acc : Accumulator) (now : Instant) : Bool := (acc.triggerNow now).isSome

/-- The row is new to the batch. -/
def accept (acc : Accumulator) (envelope : Envelope) (seen : Instant)
    (h : acc.policy.dedup = true → envelope.event.key ∉ acc.seenKeys) : Accumulator :=
  { acc with
    firstSeen := if acc.rows.isEmpty then some seen else acc.firstSeen
    bytes := acc.bytes + max envelope.bytes 1
    rows := acc.rows ++ [envelope.event]
    acks := acc.acks ++ [envelope.ack]
    seenKeys := if acc.policy.dedup then insert envelope.event.key acc.seenKeys else acc.seenKeys
    seen := fun hd => by
      rw [if_pos hd, acc.seen hd]
      ext k
      simp only [List.map_append, List.map_singleton, List.mem_toFinset, List.mem_append,
        List.mem_singleton, Finset.mem_insert]
      exact or_comm
    distinct := fun hd => by
      have hn : envelope.event.key ∉ acc.rows.map TradeEvent.key := fun hm =>
        h hd (by rw [acc.seen hd]; exact List.mem_toFinset.2 hm)
      rw [List.map_append]
      refine List.nodup_append.2 ⟨acc.distinct hd, by simp, fun a ha b hb => ?_⟩
      rw [List.map_singleton, List.mem_singleton] at hb
      exact hb ▸ ne_of_mem_of_not_mem ha hn }

/-- The row is a duplicate within the batch: discarded, and its handle kept. -/
def drop (acc : Accumulator) (envelope : Envelope) : Accumulator :=
  { acc with
    duplicates := acc.duplicates + 1
    acks := acc.acks ++ [envelope.ack] }

/-- Adds a row; whether the batch should be flushed right now. `seen` and `now` are the readings of
the clock, in order. -/
def push (acc : Accumulator) (envelope : Envelope) (seen now : Instant) : Bool × Accumulator :=
  if h : acc.policy.dedup = true ∧ envelope.event.key ∈ acc.seenKeys then
    let acc := acc.drop envelope
    (acc.due now, acc)
  else
    let acc := acc.accept envelope seen fun hd hk => h ⟨hd, hk⟩
    (acc.due now, acc)

/-- Detaches the buffered batch and resets the accumulator. -/
def take (acc : Accumulator) (trigger : FlushTrigger) : MicroBatch × Accumulator :=
  ({ rows := acc.rows
     acks := acc.acks
     trigger
     duplicatesDropped := acc.duplicates
     bufferedBytes := acc.bytes },
   { acc with
     firstSeen := none
     seenKeys := ∅
     rows := []
     acks := []
     duplicates := 0
     bytes := 0
     seen := fun _ => rfl
     distinct := fun _ => List.nodup_nil })

/-! ## What a push does -/

section
variable {acc : Accumulator} {envelope : Envelope} {seen now : Instant}

@[simp] theorem push_policy : (acc.push envelope seen now).2.policy = acc.policy := by
  unfold push
  split <;> rfl

/-- No handle is lost. -/
@[simp] theorem push_acks : (acc.push envelope seen now).2.acks = acc.acks ++ [envelope.ack] := by
  unfold push
  split <;> rfl

theorem push_rows (acc : Accumulator) (envelope : Envelope) (seen now : Instant) :
    (acc.push envelope seen now).2.rows = acc.rows ++ [envelope.event] ∨
    (acc.push envelope seen now).2.rows = acc.rows ∧
      envelope.event.key ∈ acc.rows.map TradeEvent.key := by
  unfold push
  split
  · rename_i h
    refine .inr ⟨rfl, ?_⟩
    have := h.2
    rwa [acc.seen h.1, List.mem_toFinset] at this
  · exact .inl rfl

theorem rows_sublist_push : acc.rows.Sublist (acc.push envelope seen now).2.rows := by
  rcases push_rows acc envelope seen now with h | ⟨h, -⟩
  · exact h ▸ List.sublist_append_left _ _
  · exact h ▸ List.Sublist.refl _

/-- **Nothing is swallowed**: the event's key is buffered after the push. -/
theorem mem_keys_push :
    envelope.event.key ∈ (acc.push envelope seen now).2.rows.map TradeEvent.key := by
  rcases push_rows acc envelope seen now with h | ⟨h, hk⟩
  · rw [h]
    simp
  · rwa [h]

/-- Every row of the batch afterwards was there before or is the pushed one. -/
theorem mem_push {e : TradeEvent} (h : e ∈ (acc.push envelope seen now).2.rows) :
    e ∈ acc.rows ∨ e = envelope.event := by
  rcases push_rows acc envelope seen now with h' | ⟨h', -⟩
  · rw [h'] at h
    simpa using h
  · rw [h'] at h
    exact .inl h

end

end Accumulator

end Batcher
