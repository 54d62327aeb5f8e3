import CryptoLakehouse.Batcher.Pipeline

/-!
# The source

The pull loop of `spawn_nats_source`, at the grain of its waits, between the JetStream consumer and
the batch loop. In `Pipeline` a delivery takes a message from the stream to the channel at once; here
it arrives in the stream of the fetch under way, is read and decoded by `drain_batch`, and waits in
`send` until the channel has room. Meanwhile the consumer may deliver it again, and a message may be
acked while another delivery of it is still on its way.

The consumer delivers a message that is not acked at any time: the redelivery timer is not modelled.
A message that it has not delivered before waits while `max_ack_pending` of them are unacked.
-/

namespace Batcher.Source

open Trades Sink

structure Config extends Batcher.Config where
  fetchBatch : Nat

/-- The `max_ack_pending` that `ensure_consumer` asks for. Where it is 0 the request leaves the field
out and the server's default applies; here the consumer then delivers nothing new. -/
def Config.maxAckPending (cfg : Config) : Nat := max (cfg.policy.maxRecords * 2) (cfg.fetchBatch * 2)

/-- The capacity of the channel. -/
def Config.capacity (cfg : Config) : Nat := max cfg.policy.maxRecords 1

/-- What the stream of a fetch yields. -/
abbrev Item := Except String Message

/-- `drain_batch` on the stream of one fetch. -/
structure Draining where
  /-- What has arrived and was not read. -/
  arrived : List Item
  /-- How many messages the consumer may still send for this fetch. -/
  room : Nat
  /-- The stream ends after `arrived`. -/
  ended : Bool
  pulled : Bool

inductive BatchOutcome
  | empty
  | drained
  | stopped

/-- Where the pull loop is. -/
inductive Puller
  /-- In `fetch`. -/
  | fetching
  /-- In `batch_stream.next()`. -/
  | draining (d : Draining)
  /-- In the ack of a payload that does not decode. -/
  | acking (d : Draining) (msg : Message)
  /-- In `tx.send`. -/
  | sending (d : Draining) (envelope : Envelope)
  /-- Before the next fetch. -/
  | sleeping
  /-- The task has returned. -/
  | returned

structure State where
  /-- The messages that the consumer has delivered, once or more. -/
  delivered : List Nat
  puller : Puller
  /-- The batch loop, with the channel to it and what the consumer has seen acked. -/
  loop : Batcher.State

inductive Action
  /-- `fetch` returns. -/
  | fetch (reply : Reply)
  /-- The consumer delivers a message. -/
  | arrive (seq : Nat)
  /-- The stream of the fetch breaks. -/
  | fail (why : String)
  /-- The fetch expires, or is served in full. -/
  | close
  /-- `drain_batch` reads the next item. -/
  | next
  /-- The ack of an undecodable payload ends. -/
  | ackBad (reply : Reply)
  /-- `tx.send` returns. -/
  | send
  /-- The pull loop's sleep ends. -/
  | wake
  /-- A step of the batch loop, or of another writer. -/
  | loop (a : Batcher.Action)
  /-- The process dies and is started again. -/
  | crash

/-! ## The fetch -/

def Draining.start (cfg : Config) : Draining := ⟨[], max cfg.fetchBatch 1, false, false⟩

/-- How `drain_batch` ends when its stream does. -/
def Draining.outcome (d : Draining) : BatchOutcome := if d.pulled then .drained else .empty

/-- Where the pull loop goes on. -/
def Puller.after : BatchOutcome → Puller
  | .empty => sleeping
  | .drained => fetching
  | .stopped => returned

/-- The fetch under way. -/
def Puller.fetch? : Puller → Option Draining
  | fetching => none
  | draining d => some d
  | acking d _ => some d
  | sending d _ => some d
  | sleeping => none
  | returned => none

/-- The same place, with the fetch as it is now. -/
def Puller.setFetch (d : Draining) : Puller → Puller
  | draining _ => draining d
  | acking _ msg => acking d msg
  | sending _ envelope => sending d envelope
  | p => p

/-- The messages that count against `max_ack_pending`. -/
def State.unacked (s : State) : List Nat := s.delivered.filter (· ∉ s.loop.acked)

/-- Whether the consumer may deliver a message now. -/
def State.Deliverable (cfg : Config) (s : State) (seq : Nat) : Prop :=
  seq ∉ s.loop.acked ∧ (seq ∈ s.delivered ∨ s.unacked.length < cfg.maxAckPending)

instance instDecidableDeliverable (cfg : Config) (s : State) (seq : Nat) :
    Decidable (s.Deliverable cfg seq) := inferInstanceAs (Decidable (_ ∧ _))

/-! ## The step -/

section
variable (cfg : Config) (decode : List UInt8 → Option TradeEvent)
  (stream : Nat → Option (List UInt8)) (s : State)

/-- The state after a delivery. -/
def State.deliver (d : Draining) (msg : Message) : State where
  delivered := if msg.seq ∈ s.delivered then s.delivered else s.delivered ++ [msg.seq]
  puller := s.puller.setFetch { d with arrived := d.arrived ++ [.ok msg], room := d.room - 1 }
  loop := { s.loop with deliveries := s.loop.deliveries + 1 }

def State.arrive (seq : Nat) : Option State :=
  match s.puller.fetch? with
  | some d =>
    if d.ended = false ∧ 0 < d.room ∧ s.Deliverable cfg seq then
      (stream seq).map fun payload => s.deliver d ⟨seq, s.loop.deliveries, payload⟩
    else none
  | none => none

/-- What `drain_batch` does with the next item; `process_message` for a message. -/
def Draining.next (d : Draining) : Option Puller :=
  match d.arrived with
  | .ok msg :: arrived =>
    match processMessage decode msg with
    | some envelope => some (.sending { d with arrived, pulled := true } envelope)
    | none => some (.acking { d with arrived, pulled := true } msg)
  | .error _ :: _ => some (.after d.outcome)
  | [] => if d.ended then some (.after d.outcome) else none

def State.send : Option State :=
  match s.puller with
  | .sending d envelope =>
    match s.loop.phase with
    | .stopped =>
      some { s with puller := .after .stopped, loop := { s.loop with sourceStopped := true } }
    | _ =>
      if s.loop.channel.length < cfg.capacity then
        some { s with
          puller := .draining d, loop := { s.loop with channel := s.loop.channel ++ [envelope] } }
      else none
  | _ => none

/-- One step: `decode` reads a payload, `stream` holds the payloads by sequence number. -/
def step : Action → Option State
  | .fetch reply =>
    match s.puller with
    | .fetching =>
      match reply with
      | .ok _ => some { s with puller := .draining (.start cfg) }
      | .error _ => some { s with puller := .sleeping }
    | _ => none
  | .arrive seq => s.arrive cfg stream seq
  | .fail why =>
    s.puller.fetch?.map fun d =>
      { s with puller := s.puller.setFetch { d with arrived := d.arrived ++ [.error why] } }
  | .close =>
    s.puller.fetch?.map fun d => { s with puller := s.puller.setFetch { d with ended := true } }
  | .next =>
    match s.puller with
    | .draining d => (d.next decode).map fun puller => { s with puller }
    | _ => none
  | .ackBad reply =>
    match s.puller with
    | .acking d msg => some { s with puller := .draining d, loop := s.loop.invoke reply (.nats msg) }
    | _ => none
  | .send => s.send cfg
  | .wake =>
    match s.puller with
    | .sleeping => some { s with puller := .fetching }
    | _ => none
  | .loop a =>
    match a with
    | .deliver _ _ => none
    | .crash => none
    | a => (Batcher.step cfg.toConfig decode (fun _ => []) s.loop a).map fun loop => { s with loop }
  | .crash => some { s with puller := .fetching, loop := s.loop.restart cfg.toConfig }

end

/-- The first process, on a table and a consumer that has delivered nothing. -/
def State.start (cfg : Config) (lake : Lake) : State := ⟨[], .fetching, .start cfg.toConfig lake⟩

/-! ## What a step can do -/

/-- The steps that are the pull loop's and its fetch's alone. -/
inductive Pulls (cfg : Config) (decode : List UInt8 → Option TradeEvent) : Puller → Puller → Prop
  | fetched : Pulls cfg decode .fetching (.draining (.start cfg))
  | refused : Pulls cfg decode .fetching .sleeping
  | fail {p : Puller} {d : Draining} (h : p.fetch? = some d) (why : String) :
      Pulls cfg decode p (p.setFetch { d with arrived := d.arrived ++ [.error why] })
  | close {p : Puller} {d : Draining} (h : p.fetch? = some d) :
      Pulls cfg decode p (p.setFetch { d with ended := true })
  | good {d : Draining} {msg : Message} {arrived : List Item} {e : TradeEvent}
      (ha : d.arrived = .ok msg :: arrived) (he : decode msg.payload = some e) :
      Pulls cfg decode (.draining d)
        (.sending { d with arrived, pulled := true } ⟨e, msg.payload.length, .nats msg⟩)
  | bad {d : Draining} {msg : Message} {arrived : List Item}
      (ha : d.arrived = .ok msg :: arrived) (he : decode msg.payload = none) :
      Pulls cfg decode (.draining d) (.acking { d with arrived, pulled := true } msg)
  | ended {d : Draining} : Pulls cfg decode (.draining d) (.after d.outcome)
  | wake : Pulls cfg decode .sleeping .fetching

section
variable (cfg : Config) (decode : List UInt8 → Option TradeEvent)
  (stream : Nat → Option (List UInt8))

inductive Takes (s : State) : Action → State → Prop
  | pull {a : Action} {p : Puller} (h : Pulls cfg decode s.puller p) :
      Takes s a { s with puller := p }
  | arrive {seq : Nat} {d : Draining} {payload : List UInt8} (hd : s.puller.fetch? = some d)
      (hr : 0 < d.room) (h : s.Deliverable cfg seq) (hp : stream seq = some payload) :
      Takes s (.arrive seq) (s.deliver d ⟨seq, s.loop.deliveries, payload⟩)
  | ackBad {reply : Reply} {d : Draining} {msg : Message} (hp : s.puller = .acking d msg) :
      Takes s (.ackBad reply)
        { s with puller := .draining d, loop := s.loop.invoke reply (.nats msg) }
  | gone {d : Draining} {envelope : Envelope} (hp : s.puller = .sending d envelope) :
      Takes s .send { s with puller := .returned, loop := { s.loop with sourceStopped := true } }
  | send {d : Draining} {envelope : Envelope} (hp : s.puller = .sending d envelope)
      (hc : s.loop.channel.length < cfg.capacity) :
      Takes s .send { s with
        puller := .draining d, loop := { s.loop with channel := s.loop.channel ++ [envelope] } }
  | loop {a : Batcher.Action} {loop : Batcher.State}
      (h : Batcher.step cfg.toConfig decode (fun _ => []) s.loop a = some loop)
      (hd : ∀ seq reply, a ≠ .deliver seq reply) (hc : a ≠ .crash) :
      Takes s (.loop a) { s with loop }
  | crash : Takes s .crash { s with puller := .fetching, loop := s.loop.restart cfg.toConfig }

end

section
variable {cfg : Config} {decode : List UInt8 → Option TradeEvent}
  {stream : Nat → Option (List UInt8)} {s s' : State} {a : Action}

theorem pulls_next {d : Draining} {p : Puller} (h : d.next decode = some p) :
    Pulls cfg decode (.draining d) p := by
  unfold Draining.next at h
  split at h
  · rename_i msg arrived ha
    unfold processMessage at h
    cases he : decode msg.payload with
    | some e =>
      rw [he] at h
      cases h
      exact .good ha he
    | none =>
      rw [he] at h
      cases h
      exact .bad ha he
  · cases h
    exact .ended
  · split at h
    · cases h
      exact .ended
    · cases h

/-- The batch loop's steps are the machine's, but for its deliveries and its restart. -/
theorem step_loop {b : Batcher.Action} (hd : ∀ seq reply, b ≠ .deliver seq reply)
    (hc : b ≠ .crash) : step cfg decode stream s (.loop b) =
      (Batcher.step cfg.toConfig decode (fun _ => []) s.loop b).map fun loop => { s with loop } := by
  cases b with
  | deliver seq reply => exact absurd rfl (hd seq reply)
  | crash => exact absurd rfl hc
  | _ => rfl

theorem step_loop_cases {b : Batcher.Action} (h : step cfg decode stream s (.loop b) = some s') :
    (∀ seq reply, b ≠ .deliver seq reply) ∧ b ≠ .crash ∧
      ∃ loop, Batcher.step cfg.toConfig decode (fun _ => []) s.loop b = some loop ∧
        s' = { s with loop } := by
  simp only [step] at h
  split at h
  · cases h
  · cases h
  · rename_i hd hc
    obtain ⟨loop, hl, rfl⟩ := Option.map_eq_some_iff.1 h
    exact ⟨hd, hc, loop, hl, rfl⟩

theorem step_takes (h : step cfg decode stream s a = some s') :
    Takes cfg decode stream s a s' := by
  cases a with
  | fetch reply =>
    simp only [step] at h
    split at h
    · rename_i hp
      split at h
      · cases h
        exact .pull (hp ▸ .fetched)
      · cases h
        exact .pull (hp ▸ .refused)
    · cases h
  | arrive seq =>
    simp only [step, State.arrive] at h
    split at h
    · split at h
      · rename_i hd hen
        obtain ⟨payload, hp, rfl⟩ := Option.map_eq_some_iff.1 h
        exact .arrive hd hen.2.1 hen.2.2 hp
      · cases h
    · cases h
  | fail why =>
    obtain ⟨d, hd, rfl⟩ := Option.map_eq_some_iff.1 h
    exact .pull (.fail hd why)
  | close =>
    obtain ⟨d, hd, rfl⟩ := Option.map_eq_some_iff.1 h
    exact .pull (.close hd)
  | next =>
    simp only [step] at h
    split at h
    · rename_i hp
      obtain ⟨p, hn, rfl⟩ := Option.map_eq_some_iff.1 h
      exact .pull (hp ▸ pulls_next hn)
    · cases h
  | ackBad reply =>
    simp only [step] at h
    split at h
    · cases h
      exact .ackBad ‹_›
    · cases h
  | send =>
    simp only [step, State.send] at h
    split at h
    · split at h
      · cases h
        exact .gone ‹_›
      · split at h
        · cases h
          exact .send ‹_› ‹_›
        · cases h
    · cases h
  | wake =>
    simp only [step] at h
    split at h
    · rename_i hp
      cases h
      exact .pull (hp ▸ .wake)
    · cases h
  | loop a =>
    obtain ⟨hd, hc, loop, hl, rfl⟩ := step_loop_cases h
    exact .loop hl hd hc
  | crash =>
    cases h
    exact .crash

end

end Batcher.Source
