import CryptoLakehouse.Batcher.Source
import CryptoLakehouse.Batcher.Proof.EffectivelyOnce
import CryptoLakehouse.Sink.Proof.CoBatch

/-!
# Handles at the grain of the pull loop

A message may be acked while another delivery of it is on its way, and a broken fetch drops what it
brought. `Inv` is the invariant of the source and the batch loop together: each delivery's handle is
in one place (`Handed`), the deliveries in the process stand in the order in which they came, and
each is read from the stream.

* `inv_step` — every step keeps it.
* `fifo` — first in, first out, and each delivery is acked once at most.
-/

namespace Batcher

open Trades Sink Fallible

section
variable {cfg : Config} {decode : List UInt8 → Option TradeEvent} {stream : Nat → List UInt8}
  {s s' : State} {a : Action} {Events : TradeEvent → Prop}

/-! ## What the batch loop does on its own -/

/-- The deliveries in the process from the channel on, in the order in which they came. -/
def State.held (s : State) : List Message :=
  handles s.phase.acks ++ handles s.acc.acks ++ handles (s.channel.map (·.ack))

theorem held_flush (hp : s.phase = .waiting) (t : FlushTrigger) : (s.flush t).held.Sublist s.held := by
  unfold State.flush Accumulator.take
  dsimp only
  split
  · simp only [State.held, next_acks, hp, acks_waiting, handles_nil, List.nil_append]
    exact List.sublist_append_right _ _
  · simp only [State.held, acks_flushing, hp, acks_waiting, handles_nil, List.nil_append,
      List.append_nil]
    exact List.Sublist.refl _

theorem held_push {envelope : Envelope} {channel : List Envelope}
    (hc : s.channel = envelope :: channel) (seen now : Instant) :
    { s with channel, acc := (s.acc.push envelope seen now).2 }.held = s.held := by
  have : handles (s.channel.map (·.ack)) =
      handles [envelope.ack] ++ handles (channel.map (·.ack)) := by
    rw [hc, List.map_cons, ← handles_append]
    rfl
  simp only [State.held, this, Accumulator.push_acks, handles_append, List.append_assoc]

theorem held_acking {batch : MicroBatch} {written : WriteStats} {pending : List Ack} {n : Nat}
    (hp : (handles pending).Sublist (handles s.phase.acks)) :
    (s.acking batch written pending n).held.Sublist s.held := by
  unfold State.acking
  split
  · simp only [State.held, next_acks, handles_nil, List.nil_append, List.append_assoc]
    exact List.sublist_append_right _ _
  · exact (hp.append_right _).append_right _

theorem held_invoke (reply : Reply) (ack : Ack) : (s.invoke reply ack).held = s.held := by
  cases ack <;> rfl

theorem held_written {batch : MicroBatch} (hb : s.phase = .flushing batch) (ops : WriteOps) :
    (s.written batch ops).held.Sublist s.held := by
  unfold State.written
  split
  · refine held_acking (s := { s with
      world := _
      history := { s.history with committed := s.history.committed ++ [batch.rows] } }) ?_
    rw [hb]
    exact List.Sublist.refl _
  · simp only [State.held, next_acks, handles_nil, List.nil_append, List.append_assoc]
    exact List.sublist_append_right _ _

/-- No handle is made or overtakes another, what is acked was invoked and stays acked, and nothing
enters the channel. -/
structure KeepsHandles (s s' : State) : Prop where
  live : ∀ m, s'.live.count m ≤ s.live.count m
  held : s'.held.Sublist s.held
  deliveries : s'.deliveries = s.deliveries
  acked : AckedInvoked s → AckedInvoked s'
  ackedMono : s.acked ⊆ s'.acked
  channel : s'.channel.length ≤ s.channel.length

theorem invoke_acked (reply : Reply) (ack : Ack) : s.acked ⊆ (s.invoke reply ack).acked := by
  cases ack with
  | nats msg =>
    unfold State.invoke
    dsimp only
    split
    · exact List.subset_append_left _ _
    · exact List.Subset.refl _
  | counter id => exact List.Subset.refl _
  | none => exact List.Subset.refl _

theorem flush_channel (t : FlushTrigger) : (s.flush t).channel = s.channel := by
  unfold State.flush
  dsimp only
  split <;> rfl

/-- A flush of buffered rows takes them. -/
theorem flush_taken (h : s.acc.rows ≠ []) (t : FlushTrigger) :
    (s.flush t).phase = .flushing (s.acc.take t).1 ∧ (s.flush t).world = s.world := by
  have hne : ¬(s.acc.take t).1.isEmpty = true := by
    simpa [MicroBatch.isEmpty, Accumulator.take] using h
  unfold State.flush
  dsimp only
  rw [if_neg hne]
  exact ⟨rfl, rfl⟩

/-- A flush of nothing is over at once. -/
theorem flush_nothing (h : s.acc.rows = []) (t : FlushTrigger) :
    s.flush t = { s with acc := (s.acc.take t).2, phase := .next t } := by
  unfold State.flush
  dsimp only
  rw [if_pos (by simp [MicroBatch.isEmpty, Accumulator.take, h])]

theorem acking_channel {batch : MicroBatch} {written : WriteStats} {pending : List Ack} {n : Nat} :
    (s.acking batch written pending n).channel = s.channel := by
  unfold State.acking
  split <;> rfl

theorem written_channel {batch : MicroBatch} {ops : WriteOps} :
    (s.written batch ops).channel = s.channel := by
  unfold State.written
  split
  · exact acking_channel
  · rfl

theorem KeepsHandles.flush (hp : s.phase = .waiting) (t : FlushTrigger) :
    KeepsHandles s (s.flush t) :=
  ⟨live_flush hp t, held_flush hp t, (quiet_flush t).deliveries, fun h => h.quiet (quiet_flush t),
    (quiet_flush t).acked ▸ List.Subset.refl _, (flush_channel t).symm ▸ Nat.le_refl _⟩

theorem KeepsHandles.push {envelope : Envelope} {channel : List Envelope}
    (hc : s.channel = envelope :: channel) (seen now : Instant) :
    KeepsHandles s { s with channel, acc := (s.acc.push envelope seen now).2 } :=
  ⟨fun m => (live_push hc seen now m).le, (held_push hc seen now) ▸ List.Sublist.refl _, rfl, id,
    List.Subset.refl _, by rw [hc]; exact Nat.le_succ _⟩

theorem KeepsHandles.trans {s₁ : State} (h : KeepsHandles s s₁) (h' : KeepsHandles s₁ s') :
    KeepsHandles s s' :=
  ⟨fun m => (h'.live m).trans (h.live m), h'.held.trans h.held, h'.deliveries.trans h.deliveries,
    fun ha => h'.acked (h.acked ha), List.Subset.trans h.ackedMono h'.ackedMono,
    h'.channel.trans h.channel⟩

theorem keepsHandles_step (hs : step cfg decode stream s a = some s')
    (hd : ∀ seq reply, a ≠ .deliver seq reply) : KeepsHandles s s' := by
  cases step_takes hs with
  | deliver _ => exact absurd rfl (hd _ _)
  | recv _ hc => exact .push hc _ _
  | @recvFull seen now _ envelope channel hp hc t =>
    have hf := KeepsHandles.flush (s := { s with
      channel, acc := (s.acc.push envelope seen now).2 }) hp t
    exact (KeepsHandles.push hc seen now).trans hf
  | flush hp t => exact .flush hp t
  | @write ops batch hb =>
    have hq := quiet_written (s := s) batch ops
    exact ⟨live_written hb ops, held_written hb ops, hq.deliveries, fun h => h.quiet hq,
      hq.acked ▸ List.Subset.refl _, written_channel (s := s) ▸ Nat.le_refl _⟩
  | @ack i reply batch written pending n ack hp hi n' =>
    refine ⟨live_ack hp hi reply n', ?_, ?_, fun h => ?_, ?_, ?_⟩
    · rw [← held_invoke (s := s) reply ack]
      refine held_acking ?_
      have hph : (s.invoke reply ack).phase = s.phase := (upstream_invoke reply ack).phase
      rw [hph, hp]
      exact (List.eraseIdx_sublist _ _).filterMap _
    · rw [(quiet_acking _ _ _ _).deliveries]
      cases ack <;> rfl
    · exact (h.invoke reply ack).quiet (quiet_acking _ _ _ _)
    · rw [(quiet_acking _ _ _ _).acked]
      exact invoke_acked reply ack
    · rw [acking_channel]
      cases ack <;> exact Nat.le_refl _
  | crash =>
    refine ⟨fun m => ?_, ?_, rfl, id, List.Subset.refl _, Nat.zero_le _⟩
    · simp only [State.restart, State.live, Accumulator.new, acks_waiting, List.map_nil,
        handles_nil, List.count_append, List.count_nil]
      omega
    · exact List.nil_sublist _
  | foreign _ =>
    exact ⟨fun _ => Nat.le_refl _, List.Sublist.refl _, rfl, id, List.Subset.refl _,
      Nat.le_refl _⟩

/-- Every event on its way to the table is one of `Events`. -/
structure From (Events : TradeEvent → Prop) (s : State) : Prop where
  channel : ∀ env ∈ s.channel, Events env.event
  buffered : ∀ e ∈ s.acc.rows, Events e
  flushing : ∀ batch, s.phase = .flushing batch → ∀ e ∈ batch.rows, Events e

theorem From.flush (h : From Events s) (t : FlushTrigger) : From Events (s.flush t) := by
  refine ⟨?_, fun e he => ?_, fun batch hb e he => ?_⟩
  · unfold State.flush
    dsimp only
    split <;> exact h.channel
  · rw [flush_acc] at he
    exact absurd he List.not_mem_nil
  · rw [(flush_flushing hb).1] at he
    exact h.buffered e he

theorem From.push (h : From Events s) {envelope : Envelope} {channel : List Envelope}
    (hc : s.channel = envelope :: channel) (seen now : Instant) :
    From Events { s with channel, acc := (s.acc.push envelope seen now).2 } where
  channel env he := h.channel env (hc ▸ List.mem_cons_of_mem _ he)
  buffered e he := by
    rcases Accumulator.mem_push he with he | rfl
    · exact h.buffered e he
    · exact h.channel envelope (hc ▸ List.mem_cons_self)
  flushing := h.flushing

theorem From.acking (h : From Events s) (batch : MicroBatch) (written : WriteStats)
    (pending : List Ack) (n : Nat) : From Events (s.acking batch written pending n) := by
  refine ⟨?_, fun e he => ?_, fun _ hb => absurd hb acking_ne_flushing⟩
  · unfold State.acking
    split <;> exact h.channel
  · rw [acking_acc] at he
    exact h.buffered e he

theorem From.invoke (h : From Events s) (reply : Reply) (ack : Ack) :
    From Events (s.invoke reply ack) := by
  cases ack <;> exact ⟨h.channel, h.buffered, h.flushing⟩

theorem From.written (h : From Events s) (batch : MicroBatch) (ops : WriteOps) :
    From Events (s.written batch ops) := by
  refine ⟨?_, fun e he => ?_, fun _ hb => absurd hb written_ne_flushing⟩
  · unfold State.written
    split
    · unfold State.acking
      split <;> exact h.channel
    · exact h.channel
  · rw [written_acc] at he
    exact h.buffered e he

theorem from_step (h : From Events s) (hs : step cfg decode stream s a = some s')
    (hd : ∀ seq reply, a ≠ .deliver seq reply) : From Events s' := by
  cases step_takes hs with
  | deliver _ => exact absurd rfl (hd _ _)
  | recv _ hc => exact h.push hc _ _
  | recvFull _ hc t => exact (h.push hc _ _).flush t
  | flush _ t => exact h.flush t
  | write _ => exact h.written _ _
  | ack _ _ _ => exact (h.invoke _ _).acking _ _ _ _
  | crash => exact ⟨nofun, nofun, nofun⟩
  | foreign _ => exact ⟨h.channel, h.buffered, h.flushing⟩

/-- The rows of a write are the table's and rows of the batch. -/
theorem mem_written (ho : Opened Trades.schema s.world) {batch : MicroBatch} {ops : WriteOps}
    {r : TradeRow} (hr : r ∈ (s.written batch ops).world.lake.rows) :
    r ∈ s.world.lake.rows ∨ ∃ e ∈ batch.rows, r = .ofEvent e := by
  rw [written_world] at hr
  rcases (writeBatch_spec ho ops batch.rows).lake with hl | hl
  · exact .inl (hl ▸ hr)
  · rcases List.mem_append.1 (hl.mem_iff.1 hr) with hr | hr
    · exact .inl hr
    · rw [World.newRows, dedupRows_ofEvent] at hr
      obtain ⟨e, he, rfl⟩ := List.mem_map.1 hr
      exact .inr ⟨e, (List.mem_filter.1 he).1, rfl⟩

end

end Batcher

namespace Batcher.Source

open Trades Sink

/-! ## The handles of the pull loop -/

def Draining.messages (d : Draining) : List Message :=
  d.arrived.filterMap fun
    | .ok msg => some msg
    | .error _ => none

/-- The deliveries that the pull loop holds, in the order in which they came. -/
def Puller.messages : Puller → List Message
  | fetching => []
  | draining d => d.messages
  | acking d msg => msg :: d.messages
  | sending d envelope => handles [envelope.ack] ++ d.messages
  | sleeping => []
  | returned => []

/-- What the pull loop holds is what it has read. -/
def Puller.Reads (decode : List UInt8 → Option TradeEvent) : Puller → Prop
  | fetching => True
  | draining _ => True
  | acking _ msg => decode msg.payload = none
  | sending _ envelope => Backed decode (· = envelope.event) envelope.ack ∧
      ∃ msg, envelope.ack = .nats msg ∧ decode msg.payload = some envelope.event
  | sleeping => True
  | returned => True

/-- The deliveries in the process, in the order in which they came. -/
def State.held (s : State) : List Message := s.loop.held ++ s.puller.messages

/-- Every delivery whose handle was not dropped. -/
def State.live (s : State) : List Message := s.loop.live ++ s.puller.messages

/-- Handles of deliveries of the stream, each in one place, none of a delivery to come. -/
structure Handed (stream : Nat → Option (List UInt8)) (deliveries : Nat) (msgs : List Message) :
    Prop where
  once : msgs.Nodup
  below : ∀ m ∈ msgs, m.delivery < deliveries
  payload : ∀ m ∈ msgs, stream m.seq = some m.payload

section
variable {cfg : Config} {decode : List UInt8 → Option TradeEvent}
  {stream : Nat → Option (List UInt8)} {s s' : State} {a : Action}

theorem Handed.keep {n : Nat} {msgs msgs' : List Message} (h : Handed stream n msgs)
    (hc : ∀ m, msgs'.count m ≤ msgs.count m) : Handed stream n msgs' := by
  have hm : ∀ m ∈ msgs', m ∈ msgs := fun m hm =>
    List.count_pos_iff.1 (Nat.lt_of_lt_of_le (List.count_pos_iff.2 hm) (hc m))
  refine ⟨?_, fun m hm' => h.below m (hm m hm'), fun m hm' => h.payload m (hm m hm')⟩
  exact List.nodup_iff_count_le_one.2 fun m => (hc m).trans (List.nodup_iff_count_le_one.1 h.once m)

/-- The next delivery is a new one. -/
theorem Handed.fresh {n seq : Nat} {payload : List UInt8} {msgs msgs' : List Message}
    (h : Handed stream n msgs) (hp : stream seq = some payload)
    (hm : msgs'.Perm (⟨seq, n, payload⟩ :: msgs)) : Handed stream (n + 1) msgs' := by
  refine ⟨hm.nodup_iff.2 (List.nodup_cons.2 ⟨fun hin => ?_, h.once⟩), fun m hm' => ?_,
    fun m hm' => ?_⟩
  · exact Nat.lt_irrefl _ (h.below _ hin)
  · rcases List.mem_cons.1 (hm.mem_iff.1 hm') with rfl | hm'
    · exact Nat.lt_succ_self _
    · exact Nat.lt_succ_of_lt (h.below m hm')
  · rcases List.mem_cons.1 (hm.mem_iff.1 hm') with rfl | hm'
    · exact hp
    · exact h.payload m hm'

/-- The invariant of the source and the batch loop together. -/
structure Inv (decode : List UInt8 → Option TradeEvent) (stream : Nat → Option (List UInt8))
    (s : State) : Prop where
  safe : Safe decode s.loop
  handed : Handed stream s.loop.deliveries s.live
  order : s.held.Pairwise fun m m' => m.delivery < m'.delivery
  acked : AckedInvoked s.loop
  reads : s.puller.Reads decode
  events : From (fun e => ∃ seq payload, stream seq = some payload ∧ decode payload = some e) s.loop

/-! ## What the steps do to the handles -/

theorem held_subset_live {m : Message} (h : m ∈ s.held) : m ∈ s.live := by
  simp only [State.held, Batcher.State.held, State.live, Batcher.State.live, List.mem_append] at h ⊢
  tauto

theorem Draining.messages_ok {d : Draining} {msg : Message} {arrived : List Item}
    (ha : d.arrived = .ok msg :: arrived) :
    d.messages = msg :: { d with arrived, pulled := true }.messages := by
  simp [messages, ha]

theorem setFetch_messages {p : Puller} {d : Draining} (h : p.fetch? = some d) (d' : Draining)
    (more : List Message) (hm : d'.messages = d.messages ++ more) :
    (p.setFetch d').messages = p.messages ++ more := by
  cases p with
  | fetching => cases h
  | draining _ => cases h; exact hm
  | acking _ _ => cases h; simp [Puller.setFetch, Puller.messages, hm]
  | sending _ _ => cases h; simp [Puller.setFetch, Puller.messages, hm]
  | sleeping => cases h
  | returned => cases h

/-- A delivery comes last. -/
theorem deliver_messages {d : Draining} (hd : s.puller.fetch? = some d) (msg : Message) :
    (s.deliver d msg).puller.messages = s.puller.messages ++ [msg] :=
  setFetch_messages hd _ [msg] (by simp [Draining.messages])

theorem deliver_live {d : Draining} (hd : s.puller.fetch? = some d) (msg : Message) :
    (s.deliver d msg).live = s.live ++ [msg] := by
  rw [State.live, State.live, deliver_messages hd, ← List.append_assoc]
  rfl

theorem deliver_held {d : Draining} (hd : s.puller.fetch? = some d) (msg : Message) :
    (s.deliver d msg).held = s.held ++ [msg] := by
  rw [State.held, State.held, deliver_messages hd, ← List.append_assoc]
  rfl

/-- An acked payload that does not decode is among the invoked ones from then on. -/
theorem ackBad_live {d : Draining} {msg : Message} (hp : s.puller = .acking d msg) (reply : Reply) :
    { s with puller := .draining d, loop := s.loop.invoke reply (.nats msg) }.live.Perm s.live := by
  refine List.perm_iff_count.2 fun m => ?_
  have hl := live_invoke (s := s.loop) reply (.nats msg) m
  have hm : handles [.nats msg] = [msg] := rfl
  simp only [State.live, hp, Puller.messages, List.count_append, hl, hm, List.count_cons,
    List.count_nil]
  omega

theorem handles_channel (channel : List Envelope) (envelope : Envelope) :
    handles ((channel ++ [envelope]).map (·.ack)) =
      handles (channel.map (·.ack)) ++ handles [envelope.ack] := by
  rw [List.map_append, handles_append]
  rfl

/-- What is sent goes from the pull loop to the channel. -/
theorem send_live {d : Draining} {envelope : Envelope} (hp : s.puller = .sending d envelope) :
    { s with
      puller := .draining d
      loop := { s.loop with channel := s.loop.channel ++ [envelope] } }.live.Perm s.live := by
  refine List.perm_iff_count.2 fun m => ?_
  simp only [State.live, Batcher.State.live, handles_channel, hp, Puller.messages, List.count_append]
  omega

theorem setFetch_reads {p : Puller} {d : Draining} (h : p.Reads decode) :
    (p.setFetch d).Reads decode := by
  cases p <;> exact h

/-- The pull loop's own steps keep the order and make no handle. -/
theorem pulls_messages {p p' : Puller} (h : Pulls cfg decode p p') :
    p'.messages.Sublist p.messages := by
  cases h with
  | fetched => exact List.Sublist.refl _
  | refused => exact List.Sublist.refl _
  | @fail _ d hd why =>
    rw [setFetch_messages hd _ [] (by simp [Draining.messages]), List.append_nil]
  | @close _ d hd =>
    rw [setFetch_messages hd _ [] (by simp [Draining.messages]), List.append_nil]
  | good ha _ =>
    rw [Puller.messages, Puller.messages, Draining.messages_ok ha]
    exact List.Sublist.refl _
  | bad ha _ =>
    rw [Puller.messages, Puller.messages, Draining.messages_ok ha]
  | ended =>
    unfold Draining.outcome
    split <;> exact List.nil_sublist _
  | wake => exact List.Sublist.refl _

theorem pulls_reads {p p' : Puller} (h : Pulls cfg decode p p') (hr : p.Reads decode) :
    p'.Reads decode := by
  cases h with
  | fetched => trivial
  | refused => trivial
  | fail _ _ => exact setFetch_reads hr
  | close _ => exact setFetch_reads hr
  | good _ he => exact ⟨fun m hm => by cases hm; exact ⟨_, he, rfl⟩, _, rfl, he⟩
  | bad _ he => exact he
  | ended =>
    unfold Draining.outcome
    split <;> trivial
  | wake => trivial

/-! ## One step -/

theorem Inv.pull (h : Inv decode stream s) {p : Puller} (hp : Pulls cfg decode s.puller p) :
    Inv decode stream { s with puller := p } := by
  have hs := pulls_messages hp
  refine ⟨h.safe, h.handed.keep fun m => ?_, h.order.sublist (hs.append_left _), h.acked,
    pulls_reads hp h.reads, h.events⟩
  exact (hs.append_left s.loop.live).count_le m

theorem Inv.arrive (h : Inv decode stream s) {seq : Nat} {d : Draining} {payload : List UInt8}
    (hd : s.puller.fetch? = some d) (hp : stream seq = some payload) :
    Inv decode stream (s.deliver d ⟨seq, s.loop.deliveries, payload⟩) := by
  obtain ⟨h1, h2, h3, h4, h5, h6⟩ := h.safe
  refine ⟨⟨h1, h2, h3, h4, h5, h6⟩, ?_, ?_, h.acked, setFetch_reads h.reads,
    ⟨h.events.channel, h.events.buffered, h.events.flushing⟩⟩
  · refine h.handed.fresh hp ?_
    rw [deliver_live hd]
    exact List.perm_append_singleton _ _
  · rw [deliver_held hd]
    refine List.pairwise_append.2 ⟨h.order, List.pairwise_singleton _ _, fun m hm m' hm' => ?_⟩
    rw [List.mem_singleton.1 hm']
    exact h.handed.below m (held_subset_live hm)

theorem Inv.ackBad (h : Inv decode stream s) {d : Draining} {msg : Message}
    (hp : s.puller = .acking d msg) (reply : Reply) :
    Inv decode stream { s with puller := .draining d, loop := s.loop.invoke reply (.nats msg) } := by
  have hr := h.reads
  rw [hp] at hr
  have hsafe : Safe decode (s.loop.invoke reply (.nats msg)) :=
    h.safe.invoke reply fun m hm => by
      cases hm
      exact .inl hr
  refine ⟨hsafe, h.handed.keep fun m => ((ackBad_live hp reply).count_eq m).le, ?_,
    h.acked.invoke reply (.nats msg), trivial, h.events.invoke reply (.nats msg)⟩
  refine h.order.sublist ?_
  rw [State.held, State.held, hp, held_invoke]
  exact (List.sublist_cons_self _ _).append_left _

theorem Inv.gone (h : Inv decode stream s) :
    Inv decode stream
      { s with puller := .returned, loop := { s.loop with sourceStopped := true } } := by
  obtain ⟨h1, h2, h3, h4, h5, h6⟩ := h.safe
  refine ⟨⟨h1, h2, h3, h4, h5, h6⟩, h.handed.keep fun m => ?_, ?_, h.acked, trivial,
    ⟨h.events.channel, h.events.buffered, h.events.flushing⟩⟩
  · exact ((List.nil_sublist s.puller.messages).append_left s.loop.live).count_le m
  · exact h.order.sublist ((List.nil_sublist s.puller.messages).append_left s.loop.held)

theorem Inv.send (h : Inv decode stream s) {d : Draining} {envelope : Envelope}
    (hp : s.puller = .sending d envelope) : Inv decode stream { s with
      puller := .draining d, loop := { s.loop with channel := s.loop.channel ++ [envelope] } } := by
  have hr := h.reads
  rw [hp] at hr
  obtain ⟨hb, msg, hmsg, he⟩ := hr
  obtain ⟨h1, h2, h3, h4, h5, h6⟩ := h.safe
  refine ⟨⟨h1, fun env henv => ?_, h3, h4, h5, h6⟩,
    h.handed.keep fun m => ((send_live hp).count_eq m).le, ?_, h.acked, trivial,
    fun env henv => ?_, h.events.buffered, h.events.flushing⟩
  · rcases List.mem_append.1 henv with henv | henv
    · exact h2 env henv
    · exact List.mem_singleton.1 henv ▸ hb
  · have ho := h.order
    simp only [State.held, hp, Puller.messages] at ho
    simp only [State.held, Batcher.State.held, handles_channel, Puller.messages]
    simpa [Batcher.State.held] using ho
  · rcases List.mem_append.1 henv with henv | henv
    · exact h.events.channel env henv
    · rw [List.mem_singleton.1 henv]
      refine ⟨msg.seq, msg.payload, h.handed.payload msg ?_, he⟩
      refine List.mem_append_right _ ?_
      simp [hp, Puller.messages, handles, Ack.message, hmsg]

theorem Inv.loop (h : Inv decode stream s) {a : Batcher.Action} {loop : Batcher.State}
    (hs : Batcher.step cfg.toConfig decode (fun _ => []) s.loop a = some loop)
    (hd : ∀ seq reply, a ≠ .deliver seq reply) : Inv decode stream { s with loop } := by
  have hk := keepsHandles_step hs hd
  refine ⟨safe_step h.safe hs, ?_, h.order.sublist (hk.held.append_right _), hk.acked h.acked,
    h.reads, from_step h.events hs hd⟩
  rw [hk.deliveries]
  refine h.handed.keep fun m => ?_
  simpa [State.live] using hk.live m

theorem Inv.crash (h : Inv decode stream s) :
    Inv decode stream { s with puller := .fetching, loop := s.loop.restart cfg.toConfig } := by
  refine ⟨h.safe.restart, h.handed.keep fun m => ?_, List.Pairwise.nil, h.acked, trivial,
    ⟨nofun, nofun, nofun⟩⟩
  simp only [State.live, Batcher.State.restart, Batcher.State.live, Accumulator.new, acks_waiting,
    Puller.messages, List.map_nil, handles_nil, List.count_append, List.count_nil]
  omega

theorem inv_start {lake : Lake} (hl : lake.table.schema = Trades.schema) :
    Inv decode stream (.start cfg lake) where
  safe := safe_start hl
  handed := ⟨List.nodup_nil, nofun, nofun⟩
  order := List.Pairwise.nil
  acked := nofun
  reads := trivial
  events := ⟨nofun, nofun, nofun⟩

theorem inv_step (h : Inv decode stream s) (hs : step cfg decode stream s a = some s') :
    Inv decode stream s' := by
  cases step_takes hs with
  | pull hp => exact h.pull hp
  | arrive hd _ _ hp => exact h.arrive hd hp
  | ackBad hp => exact h.ackBad hp _
  | gone _ => exact h.gone
  | send hp _ => exact h.send hp
  | loop hl hd _ => exact h.loop hl hd
  | crash => exact h.crash

/-! ## Every run -/

theorem inv_run {lake : Lake} (hl : lake.table.schema = Trades.schema) {as : List Action}
    (h : Machine.run (step cfg decode stream) (.start cfg lake) as = some s) : Inv decode stream s :=
  Machine.run_inv (fun _ _ _ h hs => inv_step h hs) (inv_start hl) h

/-- **First in, first out, each once.** In every state of every run, the deliveries in the process
stand in the order in which they came, from the batch at hand back to the fetch; no delivery is in
two places; none that is still on its way has been acked, and none of a failed batch ever is. -/
theorem fifo {lake : Lake} (hl : lake.table.schema = Trades.schema) {as : List Action}
    (h : Machine.run (step cfg decode stream) (.start cfg lake) as = some s) :
    (s.held.Pairwise fun m m' => m.delivery < m'.delivery) ∧
    s.loop.history.invoked.Nodup ∧ (∀ m ∈ s.held, m ∉ s.loop.history.invoked) ∧
    (∀ m, Ack.nats m ∈ s.loop.history.failed → m ∉ s.held ∧ m ∉ s.loop.history.invoked) ∧
    ∀ seq ∈ s.loop.acked, ∃ m ∈ s.loop.history.invoked, m.seq = seq := by
  have hi := inv_run hl h
  have hc := List.nodup_iff_count_le_one.1 hi.handed.once
  have hle : ∀ m, s.held.count m + (handles s.loop.history.failed).count m +
      s.loop.history.invoked.count m ≤ 1 := fun m => by
    have := hc m
    simp only [State.live, Batcher.State.live, List.count_append] at this
    simp only [State.held, Batcher.State.held, List.count_append]
    omega
  refine ⟨hi.order, List.nodup_iff_count_le_one.2 fun m => ?_, fun m hm hinv => ?_,
    fun m hf => ⟨fun hm => ?_, fun hinv => ?_⟩, hi.acked⟩
  · have := hle m
    omega
  · have := hle m
    have h1 := List.count_pos_iff.2 hm
    have h2 := List.count_pos_iff.2 hinv
    omega
  · have hf' : m ∈ handles s.loop.history.failed := List.mem_filterMap.2 ⟨_, hf, rfl⟩
    have := hle m
    have h1 := List.count_pos_iff.2 hm
    have h2 := List.count_pos_iff.2 hf'
    omega
  · have hf' : m ∈ handles s.loop.history.failed := List.mem_filterMap.2 ⟨_, hf, rfl⟩
    have := hle m
    have h1 := List.count_pos_iff.2 hinv
    have h2 := List.count_pos_iff.2 hf'
    omega

end

/-! ## A stale redelivery -/

/-- Two rows or five nanoseconds a batch, fetched by two. -/
def smallFetches : Config := { smallBatches with fetchBatch := 2 }

/-- A stream of one trade and one payload that does not decode. -/
def twoMessages : Nat → Option (List UInt8)
  | 0 => some [7]
  | 1 => some []
  | _ => none

/-- The trade is fetched, delivered again while its batch is written, and acked; the second delivery
of it then reaches the batch loop, its fetch breaks, and the undecodable payload is acked. -/
def staleRedelivery : List Action :=
  [.fetch (.ok ()), .arrive 0, .next, .send, .loop (.recv 0 0 0), .loop (.due 5), .arrive 0,
    .loop (.write .allOk), .loop (.ack 0 (.ok ())), .next, .send, .fail "broken pipe", .next,
    .fetch (.ok ()), .arrive 1, .next, .ackBad (.ok ()), .loop (.recv 6 6 6)]

/-- The second delivery of the trade is in the channel, and the other message in its fetch. -/
theorem fifo_stale : ∃ s,
    Machine.run (step smallFetches decodeByte twoMessages) (.start smallFetches .created)
      (staleRedelivery.take 15) = some s ∧ s.loop.acked = [0] ∧
    s.held.map (fun m => (m.seq, m.delivery)) = [(0, 1), (1, 2)] ∧
    (s.held.Pairwise fun m m' => m.delivery < m'.delivery) ∧
    ∀ m ∈ s.held, m ∉ s.loop.history.invoked := by
  have ha : (Machine.run (step smallFetches decodeByte twoMessages) (.start smallFetches .created)
      (staleRedelivery.take 15)).map
        (fun s => (s.loop.acked, s.held.map fun m => (m.seq, m.delivery))) =
          some ([0], [(0, 1), (1, 2)]) := by decide +kernel
  obtain ⟨s, hs, heq⟩ := Option.map_eq_some_iff.1 ha
  obtain ⟨hacked, hheld⟩ := Prod.mk.inj heq
  obtain ⟨horder, -, hinvoked, -⟩ := fifo rfl hs
  exact ⟨s, hs, hacked, hheld, horder, hinvoked⟩

end Batcher.Source
