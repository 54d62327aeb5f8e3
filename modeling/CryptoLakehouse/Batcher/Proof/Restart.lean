import CryptoLakehouse.Batcher.Proof.Headroom
import CryptoLakehouse.Batcher.Proof.OncePerKey
import CryptoLakehouse.Batcher.Proof.Timestamps
import CryptoLakehouse.Sink.Proof.Recovery

/-!
# A restart recovers

Redelivery is the only way back: a message whose row was dropped with a failed batch, a broken fetch
or a dead process stays unacked, and comes again. Whatever state the process is in (an `incoming`
left behind that fails every write, a stopped source, a batch let go of), it can be restarted, and
without further faults every message of the stream is acked.

That takes a stream whose trades the writer can file. A trade on whose day it panics ends the process
each time it is written, and is never acked.

* `pass` — the batch loop at rest takes one envelope through a write to its ack.
* `round` — the source and the loop at rest take one message from the consumer to its ack.
* `restart_recovers` — from every state of every run.
-/

namespace Batcher

open Trades Sink Fallible

/-- A step of the loop itself, with nothing failing. -/
def Action.Faultless : Action → Prop
  | .deliver _ _ => False
  | .recv _ _ _ => True
  | .due _ => True
  | .stop => False
  | .write ops => ops.AllOk
  | .ack _ reply => reply = .ok ()
  | .crash => False
  | .foreign _ => False

section
variable {cfg : Config} {decode : List UInt8 → Option TradeEvent} {stream : Nat → List UInt8}
  {s : State}

/-- The loop waits with nothing buffered, and its session knows only the table. -/
structure Idle (cfg : Config) (s : State) : Prop where
  phase : s.phase = .waiting
  acc : s.acc = .new cfg.policy
  opened : Opened Trades.schema s.world
  session : s.world.sink.ctx = .idle

theorem invoke_ok (s : State) (msg : Message) :
    (s.invoke (.ok ()) (.nats msg)).acked = s.acked ++ [msg.seq] := by
  show (if (.ok () : Reply) = .ok () then s.acked ++ [msg.seq] else s.acked) = _
  rw [if_pos rfl]

/-- What is pushed first is all that is buffered. -/
theorem push_new (policy : BatchConfig) (envelope : Envelope) (seen now : Instant) :
    (Accumulator.new policy |>.push envelope seen now).2.rows = [envelope.event] ∧
    (Accumulator.new policy |>.push envelope seen now).2.acks = [envelope.ack] ∧
    (Accumulator.new policy |>.push envelope seen now).2.firstSeen = some seen ∧
    (Accumulator.new policy |>.push envelope seen now).2.policy = policy := by
  have hn : ¬((Accumulator.new policy).policy.dedup = true ∧
      envelope.event.key ∈ (Accumulator.new policy).seenKeys) := fun h => by
    simp [Accumulator.new] at h
  unfold Accumulator.push
  rw [dif_neg hn]
  exact ⟨rfl, rfl, rfl, rfl⟩

/-- The size and the age triggers do not stop the loop. -/
theorem next_triggerNow (acc : Accumulator) (now : Instant) :
    Phase.next ((acc.triggerNow now).getD .bytes) = .waiting := by
  unfold Accumulator.triggerNow
  repeat' split
  all_goals rfl

/-- The batch of one envelope is being written. -/
structure Alone (cfg : Config) (envelope : Envelope) (s s' : State) : Prop where
  phase : ∃ batch, s'.phase = .flushing batch ∧ batch.acks = [envelope.ack] ∧
    Phase.next batch.trigger = .waiting
  acc : s'.acc = .new cfg.policy
  channel : s'.channel = []
  world : s'.world = s.world
  acked : s'.acked = s.acked

/-- The state after the loop has received the one envelope. -/
def State.received (s : State) (envelope : Envelope) : State :=
  { s with channel := [], acc := (s.acc.push envelope 0 0).2 }

theorem alone_flush (h : Idle cfg s) {envelope : Envelope} {t : FlushTrigger}
    (ht : Phase.next t = .waiting) : Alone cfg envelope s ((s.received envelope).flush t) := by
  obtain ⟨hr, ha, -, hpol⟩ := push_new cfg.policy envelope 0 0
  have hne : (s.received envelope).acc.rows ≠ [] := by
    show (s.acc.push envelope 0 0).2.rows ≠ []
    rw [h.acc, hr]
    exact List.cons_ne_nil _ _
  obtain ⟨hp, hw⟩ := flush_taken hne t
  refine ⟨⟨_, hp, ?_, ht⟩, ?_, flush_channel t, hw, (quiet_flush t).acked⟩
  · show (s.acc.push envelope 0 0).2.acks = _
    rw [h.acc, ha]
  · rw [flush_acc, take_eq_new]
    show Accumulator.new (s.acc.push envelope 0 0).2.policy = _
    rw [h.acc, hpol]

variable (decode stream)

/-- The loop takes the one envelope of the channel into a batch, and closes it: at once when it is
full, else when it is old enough. -/
theorem closes (h : Idle cfg s) {envelope : Envelope} (hc : s.channel = [envelope]) :
    ∃ as s', Machine.run (step cfg decode stream) s as = some s' ∧ (∀ a ∈ as, a.Faultless) ∧
      Alone cfg envelope s s' := by
  by_cases hfull : (s.acc.push envelope 0 0).1 = true
  · have hnext := next_triggerNow (s.acc.push envelope 0 0).2 0
    refine ⟨[.recv 0 0 0], _, ?_, ?_, alone_flush h hnext⟩
    · simp only [Machine.run, step, h.phase, hc, hfull, if_true, Option.bind_some]
      rfl
    · intro a ha
      rw [List.mem_singleton.1 ha]
      trivial
  · obtain ⟨hr, ha, hseen, hpol⟩ := push_new cfg.policy envelope 0 0
    have hdue : (s.received envelope).acc.timeToFlush cfg.policy.flushInterval = some 0 := by
      show (s.acc.push envelope 0 0).2.timeToFlush _ = _
      rw [h.acc, Accumulator.timeToFlush, hseen, hpol]
      simp
    have hnext : Phase.next .interval = .waiting := rfl
    refine ⟨[.recv 0 0 0, .due cfg.policy.flushInterval], _, ?_, ?_, alone_flush h hnext⟩
    · have h1 : step cfg decode stream s (.recv 0 0 0) = some (s.received envelope) := by
        simp [step, h.phase, hc, hfull, State.received]
      have h2 : step cfg decode stream (s.received envelope) (.due cfg.policy.flushInterval) =
          some ((s.received envelope).flush .interval) := by
        have hp : (s.received envelope).phase = .waiting := h.phase
        simp only [step, hp, hdue, if_true]
      simp only [Machine.run, h1, h2, Option.bind_some]
    · intro a ha
      rcases List.mem_cons.1 ha with rfl | ha
      · trivial
      · rw [List.mem_singleton.1 ha]
        trivial

/-- The write of the batch succeeds and its ack is sent. -/
theorem finishes {s' : State} {msg : Message} {e : TradeEvent} {bytes : Nat}
    (h : Idle cfg s) (ha : Alone cfg ⟨e, bytes, .nats msg⟩ s s') : ∃ s'',
      Machine.run (step cfg decode stream) s' [.write .allOk, .ack 0 (.ok ())] = some s'' ∧
      Idle cfg s'' ∧ s''.channel = [] ∧ s''.acked = s.acked ++ [msg.seq] := by
  obtain ⟨batch, hb, hacks, hnext⟩ := ha.phase
  have ho : Opened Trades.schema s'.world := ha.world ▸ h.opened
  have hidle : s'.world.sink.ctx = .idle := ha.world ▸ h.session
  have hok : succeeded (writeBatch .allOk batch.rows s'.world) = true :=
    writeBatch_ok ho hidle WriteOps.allOk_allOk
  have hctx := (writeBatch_ctx (c := ⟨.allOk, batch.rows⟩) ho hidle).2 fun _ =>
    WriteOps.allOk_allOk.probe
  have hopen := (writeBatch_spec ho .allOk batch.rows).opened
  cases hw : writeBatch .allOk batch.rows s'.world with
  | error err w => rw [hw] at hok; cases hok
  | ok written w =>
    rw [hw] at hctx hopen
    let s₁ : State := { s' with
      world := w
      history := { s'.history with committed := s'.history.committed ++ [batch.rows] }
      phase := .acking batch written [.nats msg] 0 }
    have h1 : step cfg decode stream s' (.write .allOk) = some s₁ := by
      simp only [step, hb, State.written, hw, State.acking, hacks]
      rfl
    have h2 : step cfg decode stream s₁ (.ack 0 (.ok ())) =
      some ((s₁.invoke (.ok ()) (.nats msg)).acking batch written [] 0) := rfl
    refine ⟨(s₁.invoke (.ok ()) (.nats msg)).acking batch written [] 0, ?_,
      ⟨hnext, ha.acc, hopen, hctx⟩, ha.channel, ?_⟩
    · simp only [Machine.run, h1, h2, Option.bind_some]
    exact (invoke_ok s₁ msg).trans (congrArg (· ++ [msg.seq]) ha.acked)

/-- The batch loop at rest takes one envelope through a write to its ack. -/
theorem pass (h : Idle cfg s) {msg : Message} {e : TradeEvent} {bytes : Nat}
    (hc : s.channel = [⟨e, bytes, .nats msg⟩]) : ∃ as s',
      Machine.run (step cfg decode stream) s as = some s' ∧ (∀ a ∈ as, a.Faultless) ∧
      Idle cfg s' ∧ s'.channel = [] ∧ s'.acked = s.acked ++ [msg.seq] := by
  obtain ⟨as, s₁, h₁, hf, ha⟩ := closes decode stream h hc
  obtain ⟨s', h₂, hs'⟩ := finishes decode stream h ha
  refine ⟨as ++ [.write .allOk, .ack 0 (.ok ())], s', Machine.run_append.2 ⟨s₁, h₁, h₂⟩,
    fun a ha => ?_, hs'⟩
  rcases List.mem_append.1 ha with ha | ha
  · exact hf a ha
  · rcases List.mem_cons.1 ha with rfl | ha
    · exact WriteOps.allOk_allOk
    · rw [List.mem_singleton.1 ha]
      rfl

end

end Batcher

namespace Batcher.Source

open Trades Sink

/-- Nothing fails, and nobody interferes. -/
def Action.Faultless : Action → Prop
  | .fetch reply => reply = .ok ()
  | .arrive _ => True
  | .fail _ => False
  | .close => True
  | .next => True
  | .ackBad reply => reply = .ok ()
  | .send => True
  | .wake => True
  | .loop a => a.Faultless
  | .crash => False

section
variable {cfg : Config} {decode : List UInt8 → Option TradeEvent}
  {stream : Nat → Option (List UInt8)} {s s' : State} {a : Action}

/-- Before a fetch, with nothing in the process. -/
structure Rested (cfg : Config) (s : State) : Prop where
  puller : s.puller = .fetching
  idle : Idle cfg.toConfig s.loop
  channel : s.loop.channel = []

/-- What a stretch of faultless steps does. -/
structure Serves (cfg : Config) (decode : List UInt8 → Option TradeEvent)
    (stream : Nat → Option (List UInt8)) (s : State) (as : List Action) (s' : State) : Prop where
  run : Machine.run (step cfg decode stream) s as = some s'
  faultless : ∀ a ∈ as, a.Faultless
  rested : Rested cfg s'
  acked : s.loop.acked ⊆ s'.loop.acked
  delivered : s.delivered ⊆ s'.delivered

theorem Serves.refl (h : Rested cfg s) : Serves cfg decode stream s [] s :=
  ⟨rfl, nofun, h, List.Subset.refl _, List.Subset.refl _⟩

theorem Serves.trans {s₁ : State} {as bs : List Action} (h : Serves cfg decode stream s as s₁)
    (h' : Serves cfg decode stream s₁ bs s') : Serves cfg decode stream s (as ++ bs) s' where
  run := Machine.run_append.2 ⟨s₁, h.run, h'.run⟩
  faultless a ha := (List.mem_append.1 ha).elim (h.faultless a) (h'.faultless a)
  rested := h'.rested
  acked := List.Subset.trans h.acked h'.acked
  delivered := List.Subset.trans h.delivered h'.delivered

/-- The batch loop's steps are the machine's. -/
theorem run_loop {as : List Batcher.Action} {loop : Batcher.State} (hf : ∀ a ∈ as, a.Faultless)
    (h : Machine.run (Batcher.step cfg.toConfig decode fun _ => []) s.loop as = some loop) :
    Machine.run (step cfg decode stream) s (as.map .loop) = some { s with loop } := by
  induction as generalizing s with
  | nil =>
    cases h
    rfl
  | cons a as ih =>
    obtain ⟨b, hb, hr⟩ := Machine.run_cons.1 h
    have hfa := hf a List.mem_cons_self
    have hd : ∀ seq reply, a ≠ .deliver seq reply := fun _ _ he => by
      rw [he] at hfa
      exact hfa
    have hc : a ≠ .crash := fun he => by
      rw [he] at hfa
      exact hfa
    have hstep : step cfg decode stream s (.loop a) = some { s with loop := b } := by
      rw [step_loop hd hc, hb, Option.map_some]
    rw [List.map_cons, Machine.run_cons]
    refine ⟨_, hstep, ?_⟩
    exact ih (s := { s with loop := b }) (fun a ha => hf a (List.mem_cons_of_mem _ ha)) hr

/-! ## One message -/

variable (decode)

/-- The fetch that has brought one message. -/
def Draining.one (cfg : Config) (msg : Message) : Draining :=
  ⟨[.ok msg], max cfg.fetchBatch 1 - 1, false, false⟩

/-- The fetch after its one message. -/
def Draining.emptied (cfg : Config) : Draining := ⟨[], max cfg.fetchBatch 1 - 1, false, true⟩

/-- A fetch brings the message. -/
theorem fetches (h : Rested cfg s) {seq : Nat} {payload : List UInt8}
    (hs : s.Deliverable cfg seq) (hp : stream seq = some payload) :
    ∃ delivered, Machine.run (step cfg decode stream) s [.fetch (.ok ()), .arrive seq] = some
      ⟨delivered, .draining (.one cfg ⟨seq, s.loop.deliveries, payload⟩),
        { s.loop with deliveries := s.loop.deliveries + 1 }⟩ ∧
    s.delivered ⊆ delivered ∧ ∀ n ∈ delivered, n ∈ s.delivered ∨ n = seq := by
  have hroom : 0 < max cfg.fetchBatch 1 := by omega
  have h1 : step cfg decode stream s (.fetch (.ok ())) =
      some { s with puller := .draining (.start cfg) } := by
    simp only [step, h.puller]
  have h2 : step cfg decode stream { s with puller := .draining (.start cfg) } (.arrive seq) =
      some ({ s with puller := .draining (.start cfg) }.deliver (.start cfg)
        ⟨seq, s.loop.deliveries, payload⟩) := by
    have hs' : { s with puller := .draining (.start cfg) }.Deliverable cfg seq := hs
    simp only [step, State.arrive, Puller.fetch?, Draining.start, hp, Option.map_some]
    rw [if_pos ⟨trivial, hroom, hs'⟩]
  refine ⟨_, by simp only [Machine.run, h1, h2, Option.bind_some]; rfl, ?_, fun n hn => ?_⟩
  · dsimp only
    split
    · exact List.Subset.refl _
    · exact List.subset_append_left _ _
  · split at hn
    · exact .inl hn
    · exact (List.mem_append.1 hn).imp id List.mem_singleton.1

section
variable (stream) (delivered : List Nat) (msg : Message) {loop : Batcher.State}

/-- The fetch ends. -/
theorem closes_fetch : Machine.run (step cfg decode stream)
    ⟨delivered, .draining (.emptied cfg), loop⟩ [.close, .next] =
      some ⟨delivered, .fetching, loop⟩ := rfl

/-- A payload that does not decode is acked. -/
theorem discards (hd : decode msg.payload = none) : Machine.run (step cfg decode stream)
    ⟨delivered, .draining (.one cfg msg), loop⟩ [.next, .ackBad (.ok ())] =
      some ⟨delivered, .draining (.emptied cfg), loop.invoke (.ok ()) (.nats msg)⟩ := by
  have hnext : (Draining.one cfg msg).next decode = some (.acking (.emptied cfg) msg) := by
    simp only [Draining.next, Draining.one, processMessage, hd, Option.map_none]
    rfl
  simp only [Machine.run, step, hnext, Option.map_some, Option.bind_some]

/-- A trade is sent to the channel. -/
theorem hands_over (hi : Idle cfg.toConfig loop) (hc : loop.channel = []) {e : TradeEvent}
    (hd : decode msg.payload = some e) : Machine.run (step cfg decode stream)
    ⟨delivered, .draining (.one cfg msg), loop⟩ [.next, .send] = some ⟨delivered,
      .draining (.emptied cfg), { loop with channel := [⟨e, msg.payload.length, .nats msg⟩] }⟩ := by
  have hnext : (Draining.one cfg msg).next decode =
      some (.sending (.emptied cfg) ⟨e, msg.payload.length, .nats msg⟩) := by
    simp only [Draining.next, Draining.one, processMessage, hd, Option.map_some]
    rfl
  have hcap : 0 < cfg.capacity := by
    unfold Config.capacity
    omega
  simp only [Machine.run, step, hnext, Option.map_some, Option.bind_some, State.send, hi.phase, hc,
    List.length_nil, hcap, if_true, List.nil_append]

end

/-- The source and the loop at rest take one message from the consumer to its ack. -/
theorem round (h : Rested cfg s) {seq : Nat} {payload : List UInt8} (hs : s.Deliverable cfg seq)
    (hp : stream seq = some payload) : ∃ as s', Serves cfg decode stream s as s' ∧
      s'.loop.acked = s.loop.acked ++ [seq] ∧ ∀ n ∈ s'.delivered, n ∈ s.delivered ∨ n = seq := by
  obtain ⟨delivered, hfetch, hmono, hdel⟩ := fetches decode h hs hp
  have hidle : Idle cfg.toConfig { s.loop with deliveries := s.loop.deliveries + 1 } :=
    ⟨h.idle.phase, h.idle.acc, h.idle.opened, h.idle.session⟩
  -- Whichever way the message goes, its fetch ends with the loop at rest and the message acked.
  have hrun : ∃ as loop, Machine.run (step cfg decode stream)
      ⟨delivered, .draining (.one cfg ⟨seq, s.loop.deliveries, payload⟩),
        { s.loop with deliveries := s.loop.deliveries + 1 }⟩ as =
        some ⟨delivered, .draining (.emptied cfg), loop⟩ ∧ (∀ a ∈ as, a.Faultless) ∧
      Idle cfg.toConfig loop ∧ loop.channel = [] ∧ loop.acked = s.loop.acked ++ [seq] := by
    cases hd : decode payload with
    | none =>
      refine ⟨_, _, discards decode stream delivered _ hd, fun a ha => ?_,
        ⟨hidle.phase, hidle.acc, hidle.opened, hidle.session⟩, h.channel,
        invoke_ok _ _⟩
      rcases List.mem_cons.1 ha with rfl | ha
      · trivial
      · rw [List.mem_singleton.1 ha]
        rfl
    | some e =>
      have hsend := hands_over decode stream delivered ⟨seq, s.loop.deliveries, payload⟩ hidle
        h.channel hd
      have hsent : Idle cfg.toConfig { s.loop with
          deliveries := s.loop.deliveries + 1
          channel := [⟨e, payload.length, .nats ⟨seq, s.loop.deliveries, payload⟩⟩] } :=
        ⟨hidle.phase, hidle.acc, hidle.opened, hidle.session⟩
      obtain ⟨as, b, hb, hf, hi, hc, hacked⟩ := pass decode (fun _ => []) hsent rfl
      refine ⟨_, b, Machine.run_append.2 ⟨_, hsend, run_loop hf hb⟩, fun a ha => ?_, hi, hc, hacked⟩
      simp only [List.cons_append, List.nil_append, List.mem_cons, List.mem_map] at ha
      rcases ha with rfl | rfl | ⟨b, hb, rfl⟩
      · trivial
      · trivial
      · exact hf b hb
  obtain ⟨as, loop, hrun, hf, hi, hc, hacked⟩ := hrun
  refine ⟨[.fetch (.ok ()), .arrive seq] ++ (as ++ [.close, .next]), ⟨delivered, .fetching, loop⟩,
    ⟨Machine.run_append.2 ⟨_, hfetch, Machine.run_append.2
      ⟨_, hrun, closes_fetch decode stream delivered⟩⟩, ?_, ⟨rfl, hi, hc⟩, ?_, hmono⟩, hacked, hdel⟩
  · intro a ha
    simp only [List.cons_append, List.nil_append, List.mem_cons, List.mem_append,
      List.not_mem_nil, or_false] at ha
    rcases ha with rfl | rfl | ha | rfl | rfl
    case inr.inr.inl => exact hf a ha
    all_goals trivial
  · show s.loop.acked ⊆ loop.acked
    rw [hacked]
    exact List.subset_append_left _ _

/-! ## Every message -/

/-- A message that was delivered before, or that the consumer has room for, gets acked. -/
theorem serves_one (h : Rested cfg s) {seq : Nat} {payload : List UInt8}
    (hp : stream seq = some payload)
    (hd : seq ∈ s.delivered ∨ s.unacked.length < cfg.maxAckPending) : ∃ as s',
      Serves cfg decode stream s as s' ∧ seq ∈ s'.loop.acked ∧
      ∀ n ∈ s'.delivered, n ∈ s.delivered ∨ n = seq := by
  by_cases ha : seq ∈ s.loop.acked
  · exact ⟨[], s, .refl h, ha, fun n hn => .inl hn⟩
  · obtain ⟨as, s', hs, hacked, hdel⟩ := round decode h ⟨ha, hd⟩ hp
    refine ⟨as, s', hs, ?_, hdel⟩
    rw [hacked]
    exact List.mem_append_right _ (List.mem_singleton_self _)

/-- The messages that were delivered before get acked, one by one. -/
theorem serves_delivered (h : Rested cfg s) (hk : ∀ n ∈ s.delivered, stream n ≠ none)
    (seqs : List Nat) (hseqs : seqs ⊆ s.delivered) : ∃ as s',
      Serves cfg decode stream s as s' ∧ seqs ⊆ s'.loop.acked ∧ s'.delivered ⊆ s.delivered := by
  induction seqs with
  | nil => exact ⟨[], s, .refl h, nofun, List.Subset.refl _⟩
  | cons seq seqs ih =>
    obtain ⟨as, s₁, h₁, hacked, hdel⟩ := ih fun n hn => hseqs (List.mem_cons_of_mem _ hn)
    have hseq := hseqs List.mem_cons_self
    obtain ⟨payload, hp⟩ := Option.ne_none_iff_exists'.1 (hk seq hseq)
    obtain ⟨bs, s', h₂, hin, hdel'⟩ := serves_one decode h₁.rested hp
      (.inl (h₁.delivered hseq))
    refine ⟨as ++ bs, s', h₁.trans h₂, fun n hn => ?_, fun n hn => ?_⟩
    · rcases List.mem_cons.1 hn with rfl | hn
      · exact hin
      · exact h₂.acked (hacked hn)
    · rcases hdel' n hn with hn | rfl
      · exact hdel hn
      · exact hseq

/-- Every message of the stream gets acked: first those that count against `max_ack_pending`. -/
theorem serves_all (h : Rested cfg s) (hk : ∀ n ∈ s.delivered, stream n ≠ none)
    (hcap : 0 < cfg.maxAckPending) (seqs : List Nat) (hseqs : ∀ seq ∈ seqs, stream seq ≠ none) :
    ∃ as s', Serves cfg decode stream s as s' ∧ seqs ⊆ s'.loop.acked := by
  induction seqs generalizing s with
  | nil => exact ⟨[], s, .refl h, nofun⟩
  | cons seq seqs ih =>
    obtain ⟨as, s₁, h₁, hacked, hdel⟩ :=
      serves_delivered decode h hk s.delivered (List.Subset.refl _)
    have hnone : s₁.unacked = [] :=
      List.filter_eq_nil_iff.2 fun n hn => by simpa using hacked (hdel hn)
    obtain ⟨payload, hp⟩ := Option.ne_none_iff_exists'.1 (hseqs seq List.mem_cons_self)
    obtain ⟨bs, s₂, h₂, hin, hdel'⟩ := serves_one decode h₁.rested hp
      (.inr (by rw [hnone]; exact hcap))
    have hk' : ∀ n ∈ s₂.delivered, stream n ≠ none := fun n hn => by
      rcases hdel' n hn with hn | rfl
      · exact hk n (hdel hn)
      · rw [hp]
        nofun
    obtain ⟨cs, s', h₃, hall⟩ := ih h₂.rested hk' fun n hn => hseqs n (List.mem_cons_of_mem _ hn)
    refine ⟨as ++ (bs ++ cs), s', h₁.trans (h₂.trans h₃), fun n hn => ?_⟩
    rcases List.mem_cons.1 hn with rfl | hn
    · exact h₃.acked hin
    · exact hall hn

variable {decode}

/-- What the consumer has delivered is in the stream. -/
theorem known_step (h : ∀ n ∈ s.delivered, stream n ≠ none)
    (hs : step cfg decode stream s a = some s') : ∀ n ∈ s'.delivered, stream n ≠ none := by
  cases step_takes hs with
  | pull _ => exact h
  | @arrive seq d payload _ _ _ hp =>
    intro n hn
    unfold State.deliver at hn
    dsimp only at hn
    split at hn
    · exact h n hn
    · rcases List.mem_append.1 hn with hn | hn
      · exact h n hn
      · rw [List.mem_singleton.1 hn, hp]
        nofun
  | ackBad _ => exact h
  | gone _ => exact h
  | send _ _ => exact h
  | loop _ _ _ => exact h
  | crash => exact h

/-- A write is one of trades that the writer can file. -/
def State.Writes (s : State) (a : Action) : Prop :=
  ∀ ops batch, a = .loop (.write ops) → s.loop.phase = .flushing batch →
    ∀ e ∈ batch.rows, e.Writable

/-- With such trades only in the stream, every write is. -/
theorem writes_run {lake : Lake} (hl : lake.table.schema = Trades.schema)
    (hw : ∀ e, EventOf decode stream e → e.Writable) {as : List Action}
    (h : Machine.run (step cfg decode stream) (.start cfg lake) as = some s) (bs : List Action) :
    Machine.EachStep (step cfg decode stream) State.Writes s bs :=
  Machine.eachStep_of_inv (I := Inv decode stream) (fun _ _ _ h hs => inv_step h hs)
    (fun _ _ h _ batch _ hb e he => hw e (h.events.flushing batch hb e he)) (inv_run hl h) bs

/-- From every state of every run, a restart and some faultless steps ack the messages. -/
theorem recover_run {lake : Lake} (hl : lake.table.schema = Trades.schema)
    (hcap : 0 < cfg.maxAckPending) {as : List Action}
    (h : Machine.run (step cfg decode stream) (.start cfg lake) as = some s) (seqs : List Nat)
    (hseqs : ∀ seq ∈ seqs, stream seq ≠ none) : ∃ bs s', (∀ a ∈ bs, a.Faultless) ∧
      Machine.run (step cfg decode stream) s (.crash :: bs) = some s' ∧ seqs ⊆ s'.loop.acked := by
  have hinv := inv_run hl h
  have hk : ∀ n ∈ s.delivered, stream n ≠ none :=
    Machine.run_inv (I := fun s => ∀ n ∈ s.delivered, stream n ≠ none)
      (fun _ _ _ h hs => known_step h hs) (fun _ hn => absurd hn List.not_mem_nil) h
  have hrest : Rested cfg { s with puller := .fetching, loop := s.loop.restart cfg.toConfig } :=
    ⟨rfl, ⟨rfl, rfl, opened_connect _ _ hinv.safe.opened.lakeSchema, rfl⟩, rfl⟩
  obtain ⟨bs, s', hs, hall⟩ := serves_all decode hrest hk hcap seqs hseqs
  exact ⟨bs, s', hs.faultless, Machine.run_cons.2 ⟨_, rfl, hs.run⟩, hall⟩

/-- **A restart recovers**: when the writer can file the trades of the stream, from every state of
every run, however the process got there, a restart and some steps without further faults, each write
one that the writer gets past, lead to a state in which any messages of the stream are acked, with
their keys in the table. -/
theorem restart_recovers {lake : Lake} (hl : lake.table.schema = Trades.schema)
    (hcap : 0 < cfg.maxAckPending) (hw : ∀ e, EventOf decode stream e → e.Writable)
    {as : List Action} (h : Machine.run (step cfg decode stream) (.start cfg lake) as = some s)
    (seqs : List Nat) (hseqs : ∀ seq ∈ seqs, stream seq ≠ none) :
    ∃ bs s', (∀ a ∈ bs, a.Faultless) ∧
      Machine.EachStep (step cfg decode stream) State.Writes s (.crash :: bs) ∧
      Machine.run (step cfg decode stream) s (.crash :: bs) = some s' ∧
      ∀ seq ∈ seqs, seq ∈ s'.loop.acked ∧ ∀ r, row decode stream seq = some r →
        ∃ r' ∈ s'.loop.world.lake.rows, r'.key = r.key := by
  obtain ⟨bs, s', hf, hrun, hall⟩ := recover_run hl hcap h seqs hseqs
  refine ⟨bs, s', hf, writes_run hl hw h _, hrun, fun seq hseq => ⟨hall hseq, ?_⟩⟩
  exact acked_held hl (Machine.run_append.2 ⟨s, h, hrun⟩) seq (hall hseq)

end

/-- A probe fails while the trade is written: `incoming` stays registered, and every later write of
this process fails. -/
def wedged : List Action :=
  [.fetch (.ok ()), .arrive 0, .next, .send, .loop (.recv 0 0 0), .loop (.due 5),
    .loop (.write { WriteOps.allOk with collect := .error "Resources exhausted" }), .arrive 0, .next,
    .send, .loop (.recv 6 6 6), .loop (.due 11), .loop (.write .allOk)]

theorem restart_recovers_wedged : ∃ s,
    Machine.run (step smallFetches decodeByte twoMessages) (.start smallFetches .created) wedged =
      some s ∧ s.loop.stats.failedCommits = 2 ∧
    ∃ bs s', (∀ a ∈ bs, a.Faultless) ∧
      Machine.EachStep (step smallFetches decodeByte twoMessages) State.Writes s (.crash :: bs) ∧
      Machine.run (step smallFetches decodeByte twoMessages) s (.crash :: bs) = some s' ∧
      ∀ seq ∈ [0, 1], seq ∈ s'.loop.acked := by
  have hx : (Machine.run (step smallFetches decodeByte twoMessages) (.start smallFetches .created)
      wedged).map (·.loop.stats.failedCommits) = some 2 := by decide +kernel
  obtain ⟨s, hs, hfail⟩ := Option.map_eq_some_iff.1 hx
  have hin : ∀ seq ∈ [0, 1], twoMessages seq ≠ none := by decide
  have hw : ∀ e, EventOf decodeByte twoMessages e → e.Writable := by
    rintro e ⟨seq, payload, -, hd⟩
    unfold decodeByte at hd
    split at hd
    · cases hd
      exact ⟨⟨show InMicros 1000 by decide, show InMicros 1000 by decide⟩,
        show (1000 : UInt64) < 8210266876800000 by decide⟩
    · cases hd
  obtain ⟨bs, s', hf, hws, hr, hall⟩ := restart_recovers rfl (by decide) hw hs [0, 1] hin
  exact ⟨s, hs, hfail, bs, s', hf, hws, hr, fun seq hseq => (hall seq hseq).1⟩

end Batcher.Source
