import CryptoLakehouse.Batcher.Redelivery
import CryptoLakehouse.Batcher.Proof.Headroom
import CryptoLakehouse.Batcher.Proof.Settings

/-!
# No redelivery of what is held

`effective_ack_wait` keeps the `ack_wait` of the consumer above four flush intervals and ten seconds,
so that no row is delivered again while the batcher still holds it. A delivery waits for at most one
flush and a part of another before it is buffered, and then for the age trigger and its own flush
(`OnTime`). This takes batches that close by count or by age: the byte threshold is no lower than a
full batch (`Fits`).

* `held_briefly` — every delivery in the process arrived less than a flush interval and three
  flushes ago.
* `held_once` — with the `ack_wait` in effect, and flushes no longer than an interval and three
  seconds, no message is in the process twice.
-/

namespace Batcher

open Trades Sink

section
variable {acc : Accumulator} {now : Instant} {trigger : FlushTrigger}

/-- A batch closes by count or by age, when the bytes are within the threshold until then. -/
theorem triggerNow_cases (h : acc.triggerNow now = some trigger)
    (hb : acc.rows.length < acc.policy.maxRecords → acc.bytes < acc.policy.maxBytes) :
    trigger ≠ .shutdown ∧ acc.rows ≠ [] ∧
      (acc.policy.maxRecords ≤ acc.rows.length ∨ acc.ageExceeded now = true) := by
  unfold Accumulator.triggerNow at h
  split at h
  · cases h
  · rename_i hne
    have hr : acc.rows ≠ [] := by simpa [Accumulator.isEmpty] using hne
    split at h
    · cases h
      exact ⟨by decide, hr, .inl ‹_›⟩
    · split at h
      · have := hb (by omega)
        omega
      · split at h
        · cases h
          exact ⟨by decide, hr, .inr ‹_›⟩
        · cases h

/-- The age of the first row. -/
theorem ageExceeded_iff : acc.ageExceeded now = true ↔
    ∃ t : Nat, acc.firstSeen = some t ∧ acc.policy.flushInterval ≤ now - t := by
  unfold Accumulator.ageExceeded Accumulator.timeToFlush
  cases acc.firstSeen with
  | none => simp
  | some t => simp [Nat.sub_eq_zero_iff_le]

/-- The first row of a batch starts its timer. -/
theorem push_firstSeen {es : List Envelope} (h : Holds acc es) (envelope : Envelope)
    (seen : Instant) :
    (acc.push envelope seen now).2.firstSeen = some (acc.firstSeen.getD seen) := by
  unfold Accumulator.push
  split
  · rename_i hd
    have hne : acc.rows ≠ [] := by
      intro hr
      have := (acc.seen hd.1) ▸ hd.2
      simp [hr] at this
    obtain ⟨t, ht⟩ := Option.ne_none_iff_exists'.1 (fun hn => hne (h.firstSeen.2 hn))
    show acc.firstSeen = _
    rw [ht]
    rfl
  · show (if acc.rows.isEmpty then some seen else acc.firstSeen) = _
    cases hr : acc.rows with
    | nil =>
      rw [h.firstSeen.1 hr]
      rfl
    | cons e rows =>
      obtain ⟨t, ht⟩ := Option.ne_none_iff_exists'.1 (fun hn => by
        have := h.firstSeen.2 hn
        rw [hr] at this
        cases this)
      rw [ht]
      rfl

end

/-- Nothing is buffered, and no timer runs. -/
structure Accumulator.Empty (acc : Accumulator) : Prop where
  acks : acc.acks = []
  firstSeen : acc.firstSeen = none

/-! ## The bytes of a batch -/

/-- Every envelope on its way carries a message of at most `size` bytes. -/
structure Fits (size : Nat) (s : State) : Prop where
  channel : ∀ env ∈ s.channel, (∃ msg, env.ack = .nats msg) ∧ env.bytes ≤ size
  buffered : s.acc.bytes ≤ s.acc.rows.length * max size 1

section
variable {cfg : Config} {decode : List UInt8 → Option TradeEvent} {stream : Nat → List UInt8}
  {s s' : State} {a : Action} {size : Nat}

theorem Fits.frame (h : Fits size s) (hc : s'.channel = s.channel) (ha : s'.acc = s.acc) :
    Fits size s' :=
  ⟨hc ▸ h.channel, ha ▸ h.buffered⟩

theorem Fits.push (h : Fits size s) {envelope : Envelope} {channel : List Envelope}
    (hc : s.channel = envelope :: channel) (seen now : Instant) :
    Fits size { s with channel, acc := (s.acc.push envelope seen now).2 } := by
  have hb := (h.channel envelope (hc ▸ List.mem_cons_self)).2
  have hacc := h.buffered
  refine ⟨fun env he => h.channel env (hc ▸ List.mem_cons_of_mem _ he), ?_⟩
  show (s.acc.push envelope seen now).2.bytes ≤ (s.acc.push envelope seen now).2.rows.length * _
  unfold Accumulator.push
  split
  · exact hacc
  · show s.acc.bytes + max envelope.bytes 1 ≤ (s.acc.rows ++ [envelope.event]).length * max size 1
    rw [List.length_append, List.length_singleton, Nat.succ_mul]
    omega

theorem Fits.flush (h : Fits size s) (t : FlushTrigger) : Fits size (s.flush t) := by
  refine ⟨flush_channel (s := s) t ▸ h.channel, ?_⟩
  rw [flush_acc, take_eq_new]
  exact Nat.zero_le _

theorem fits_step (h : Fits size s) (hs : step cfg decode stream s a = some s')
    (hd : ∀ seq reply, a ≠ .deliver seq reply) : Fits size s' := by
  cases step_takes hs with
  | deliver _ => exact absurd rfl (hd _ _)
  | recv _ hc => exact h.push hc _ _
  | recvFull _ hc t => exact (h.push hc _ _).flush t
  | flush _ t => exact h.flush t
  | write _ => exact h.frame written_channel written_acc
  | @ack i reply batch written pending n ack hp hi n' =>
    refine h.frame ?_ ?_
    · rw [acking_channel]
      cases ack <;> rfl
    · rw [acking_acc]
      cases ack <;> rfl
  | crash => exact ⟨nofun, Nat.zero_le _⟩
  | foreign _ => exact h.frame rfl rfl

/-- Below the count the bytes are below their threshold. -/
theorem Fits.bytes_lt (h : Fits size s)
    (hmax : s.acc.policy.maxRecords * max size 1 ≤ s.acc.policy.maxBytes)
    (hlt : s.acc.rows.length < s.acc.policy.maxRecords) : s.acc.bytes < s.acc.policy.maxBytes := by
  have h1 : (s.acc.rows.length + 1) * max size 1 ≤ s.acc.policy.maxRecords * max size 1 :=
    Nat.mul_le_mul_right _ hlt
  have := h.buffered
  rw [Nat.succ_mul] at h1
  omega

end

end Batcher

namespace Batcher.Source

open Trades Sink

/-- The deliveries that the batch loop has not received. -/
def State.queue (s : State) : List Message :=
  handles (s.loop.channel.map (·.ack)) ++ s.puller.messages

theorem held_eq (s : State) :
    s.held = handles s.loop.phase.acks ++ handles s.loop.acc.acks ++ s.queue := by
  simp [State.held, Batcher.State.held, State.queue]

section
variable {cfg : Config} {decode : List UInt8 → Option TradeEvent}
  {stream : Nat → Option (List UInt8)} {s s' : State} {a : Action}

theorem arrive_cases {seq : Nat} (h : step cfg decode stream s (.arrive seq) = some s') :
    ∃ d payload, s.puller.fetch? = some d ∧ s' = s.deliver d ⟨seq, s.loop.deliveries, payload⟩ := by
  simp only [step, State.arrive] at h
  split at h
  · rename_i d hd
    split at h
    · obtain ⟨payload, -, rfl⟩ := Option.map_eq_some_iff.1 h
      exact ⟨d, payload, hd, rfl⟩
    · cases h
  · cases h

/-- A delivery joins the queue at its end. -/
theorem deliver_queue {d : Draining} (hd : s.puller.fetch? = some d) (msg : Message) :
    (s.deliver d msg).queue = s.queue ++ [msg] := by
  rw [State.queue, State.queue, deliver_messages hd, ← List.append_assoc]
  rfl

/-- Only a delivery brings a message. -/
theorem held_sublist (hs : step cfg decode stream s a = some s') (ha : ∀ seq, a ≠ .arrive seq) :
    s'.held.Sublist s.held := by
  cases step_takes hs with
  | pull hp => exact (pulls_messages hp).append_left _
  | arrive _ _ _ _ => exact absurd rfl (ha _)
  | ackBad hp =>
    rw [State.held, State.held, hp, held_invoke]
    exact (List.sublist_cons_self _ _).append_left _
  | gone _ => exact (List.nil_sublist _).append_left _
  | send hp _ =>
    simp [State.held, Batcher.State.held, hp, Puller.messages, handles]
  | loop hl hd _ => exact (keepsHandles_step hl hd).held.append_right _
  | crash => exact List.nil_sublist _

end

end Batcher.Source

namespace Batcher.Redelivery

open Trades Sink Source

/-! ## Ages -/

/-- From the `k`-th of the queue on, each had arrived less than `d` before `t`. -/
def Fresh (arrived : Message → Nat) (queue : List Message) (k : Nat) (t : Nat) (d : Nat) :
    Prop :=
  ∀ m ∈ queue.drop k, t ≤ arrived m + d

section
variable (cfg : Config) (now taken : Nat) (arrived : Message → Nat) (s : Source.State)

/-- While the batch loop is in `select!`: what waited for one flush is within the batch at hand, and
what waited for two is buffered. -/
structure Waiting : Prop where
  timer : ∀ t : Nat, s.loop.acc.firstSeen = some t →
    t ≤ now ∧ now ≤ t + cfg.source.policy.flushInterval
  buffered : ∀ m ∈ handles s.loop.acc.acks,
    ∃ t : Nat, s.loop.acc.firstSeen = some t ∧ t ≤ arrived m + 2 * cfg.flushTime
  all : Fresh arrived s.queue 0 now (2 * cfg.flushTime)
  batch : Fresh arrived s.queue (cfg.source.capacity - s.loop.acc.acks.length) now cfg.flushTime
  beyond : Fresh arrived s.queue (2 * cfg.source.capacity - s.loop.acc.acks.length) now 0
  /-- Once the timer has moved, the queue has been empty. -/
  idle : ∀ t : Nat, s.loop.acc.firstSeen = some t → t < now → Fresh arrived s.queue 0 now 0

/-- While a batch is written and acked, taken at `taken`. -/
structure Flushing (trigger : FlushTrigger) : Prop where
  past : taken ≤ now
  inTime : now ≤ taken + cfg.flushTime
  batch : ∀ m ∈ handles s.loop.phase.acks,
    taken ≤ arrived m + cfg.source.policy.flushInterval + 2 * cfg.flushTime
  all : Fresh arrived s.queue 0 taken (2 * cfg.flushTime)
  next : trigger ≠ .shutdown → Fresh arrived s.queue 0 taken cfg.flushTime ∧
    Fresh arrived s.queue cfg.source.capacity taken 0

/-- The ages of what the process holds. -/
def OnTime : Prop :=
  match s.loop.phase with
  | .waiting => Waiting cfg now arrived s
  | .flushing batch => Flushing cfg now taken arrived s batch.trigger
  | .acking batch _ _ _ => Flushing cfg now taken arrived s batch.trigger
  | .stopped => Fresh arrived s.queue 0 now (3 * cfg.flushTime)

end

section
variable {cfg : Config} {now taken : Nat} {arrived arrived' : Message → Nat}
  {s s' : Source.State} {queue queue' : List Message} {k k' t t' d d' : Nat}

theorem Fresh.mono (h : Fresh arrived queue k t d) (hk : k ≤ k') (ht : t' + d ≤ t + d') :
    Fresh arrived queue k' t' d' := fun m hm => by
  have hin : m ∈ queue.drop k := (List.drop_sublist_drop_left queue hk).subset hm
  have := h m hin
  omega

theorem fresh_nil : Fresh arrived [] k t d := fun m hm => by simp at hm

/-- What is new in the queue has just arrived. -/
def Renews (now : Nat) (arrived arrived' : Message → Nat) (queue queue' : List Message) :
    Prop :=
  ∀ k, ∀ m ∈ queue'.drop k, m ∈ queue.drop k ∧ arrived' m = arrived m ∨ now ≤ arrived' m

theorem Renews.of_sublist (h : queue'.Sublist queue) : Renews now arrived arrived queue queue' :=
  fun k _ hm => .inl ⟨(h.drop k).subset hm, rfl⟩

theorem Fresh.renew (h : Fresh arrived queue k t d) (hq : Renews now arrived arrived' queue queue')
    (ht : t ≤ now) : Fresh arrived' queue' k t d := fun m hm => by
  rcases hq k m hm with ⟨hm, ha⟩ | ha
  · rw [ha]
    exact h m hm
  · omega

/-! ## The steps that leave the batch alone -/

/-- The batch loop's place and batch are the same, and what is new in the queue has just arrived. -/
theorem OnTime.frame (h : OnTime cfg now taken arrived s) (hp : s'.loop.phase = s.loop.phase)
    (ha : s'.loop.acc = s.loop.acc) (hq : Renews now arrived arrived' s.queue s'.queue)
    (hs : ∀ m ∈ handles s.loop.phase.acks ++ handles s.loop.acc.acks, arrived' m = arrived m) :
    OnTime cfg now taken arrived' s' := by
  have hacc : ∀ m ∈ handles s.loop.acc.acks, arrived' m = arrived m := fun m hm =>
    hs m (List.mem_append_right _ hm)
  have hflush : ∀ trigger, Flushing cfg now taken arrived s trigger →
      Flushing cfg now taken arrived' s' trigger := fun trigger hf => by
    refine ⟨hf.past, hf.inTime, fun m hm => ?_, hf.all.renew hq hf.past, fun hne => ?_⟩
    · rw [hp] at hm
      rw [hs m (List.mem_append_left _ hm)]
      exact hf.batch m hm
    · exact ⟨(hf.next hne).1.renew hq hf.past, (hf.next hne).2.renew hq hf.past⟩
  unfold OnTime at h ⊢
  rw [hp]
  cases hph : s.loop.phase with
  | waiting =>
    rw [hph] at h
    simp only at h ⊢
    refine ⟨ha ▸ h.timer, fun m hm => ?_, h.all.renew hq le_rfl, ?_, ?_, ?_⟩
    · rw [ha] at hm ⊢
      rw [hacc m hm]
      exact h.buffered m hm
    · rw [ha]
      exact h.batch.renew hq le_rfl
    · rw [ha]
      exact h.beyond.renew hq le_rfl
    · rw [ha]
      exact fun t ht hlt => (h.idle t ht hlt).renew hq le_rfl
  | flushing batch =>
    rw [hph] at h
    exact hflush _ h
  | acking batch written pending n =>
    rw [hph] at h
    exact hflush _ h
  | stopped =>
    rw [hph] at h
    exact Fresh.renew h hq le_rfl

/-! ## The batch loop -/

theorem Waiting.onTime (h : Waiting cfg now arrived s) (hp : s.loop.phase = .waiting) :
    OnTime cfg now taken arrived s := by
  unfold OnTime
  rwa [hp]

theorem queue_recv {envelope : Envelope} {channel : List Envelope} {msg : Message}
    (hc : s.loop.channel = envelope :: channel) (hm : envelope.ack = .nats msg)
    (acc : Accumulator) :
    s.queue = msg :: { s with loop := { s.loop with channel, acc } }.queue := by
  simp [State.queue, hc, handles, hm, Ack.message]

/-- A push within the timer. -/
theorem Waiting.push {es : List Envelope} (h : Waiting cfg now arrived s)
    (hes : Holds s.loop.acc es) {envelope : Envelope} {channel : List Envelope} {msg : Message}
    (hc : s.loop.channel = envelope :: channel) (hm : envelope.ack = .nats msg) :
    Waiting cfg now arrived { s with
      loop := { s.loop with channel, acc := (s.loop.acc.push envelope now now).2 } } := by
  have hqueue := queue_recv hc hm (s.loop.acc.push envelope now now).2
  generalize hs₁ : ({ s with
      loop := { s.loop with channel, acc := (s.loop.acc.push envelope now now).2 } }
        : Source.State) = s₁ at hqueue ⊢
  have hfirst : s₁.loop.acc.firstSeen = some (s.loop.acc.firstSeen.getD now) := by
    rw [← hs₁]
    exact push_firstSeen hes envelope now
  have hacks : s₁.loop.acc.acks = s.loop.acc.acks ++ [envelope.ack] := by
    rw [← hs₁]
    exact Accumulator.push_acks
  have hlen : s₁.loop.acc.acks.length = s.loop.acc.acks.length + 1 := by
    rw [hacks, List.length_append, List.length_singleton]
  -- What was the `k + 1`-st of the queue is the `k`-th.
  have hdrop : ∀ {k d}, Fresh arrived s.queue k now d → Fresh arrived s₁.queue (k - 1) now d := by
    intro k d hf m hm
    rw [hqueue] at hf
    cases k with
    | zero => exact hf m (List.mem_cons_of_mem _ hm)
    | succ k => exact hf m hm
  have hall : ∀ {d}, Fresh arrived s.queue 0 now d → Fresh arrived s₁.queue 0 now d := fun hf =>
    hdrop hf
  have htimer : ∀ t : Nat, s₁.loop.acc.firstSeen = some t →
      s.loop.acc.firstSeen = some t ∨ s.loop.acc.firstSeen = none ∧ t = now := fun t ht => by
    rw [hfirst] at ht
    cases hf : s.loop.acc.firstSeen with
    | none =>
      rw [hf] at ht
      exact .inr ⟨rfl, (Option.some.inj ht).symm⟩
    | some t₀ =>
      rw [hf] at ht
      exact .inl ht
  refine ⟨fun t ht => ?_, fun m hm' => ?_, hall h.all, ?_, ?_, fun t ht hlt => ?_⟩
  · rcases htimer t ht with ht | ⟨-, rfl⟩
    · exact h.timer t ht
    · omega
  · rw [hacks, handles_append, List.mem_append] at hm'
    rcases hm' with hm' | hm'
    · obtain ⟨t, ht, hle⟩ := h.buffered m hm'
      exact ⟨t, by rw [hfirst, ht]; rfl, hle⟩
    · have hmsg : m = msg := by simpa [handles, hm, Ack.message] using hm'
      have hwait := h.all msg (by rw [hqueue]; exact List.mem_cons_self)
      refine ⟨_, hfirst, ?_⟩
      rw [hmsg]
      cases hf : s.loop.acc.firstSeen with
      | none => exact hwait
      | some t => exact (h.timer t hf).1.trans hwait
  · rw [hlen, ← Nat.sub_sub]
    exact hdrop h.batch
  · rw [hlen, ← Nat.sub_sub]
    exact hdrop h.beyond
  · rcases htimer t ht with ht | ⟨-, rfl⟩
    · exact hall (h.idle t ht hlt)
    · omega

/-- The batch loop goes back to `select!` with nothing buffered. -/
theorem waiting_of_empty (ha : s.loop.acc.Empty)
    (hlen : s.queue.length ≤ 2 * cfg.source.capacity)
    (hall : Fresh arrived s.queue 0 now (2 * cfg.flushTime))
    (hnext : Fresh arrived s.queue cfg.source.capacity now cfg.flushTime) :
    Waiting cfg now arrived s := by
  have hacks : s.loop.acc.acks.length = 0 := by
    rw [ha.acks]
    rfl
  have hfirst : ∀ {t}, s.loop.acc.firstSeen ≠ some t := fun ht => by
    rw [ha.firstSeen] at ht
    cases ht
  refine ⟨fun t ht => absurd ht hfirst, fun m hm => ?_, hall, ?_, fun m hm => ?_,
    fun t ht => absurd ht hfirst⟩
  · rw [ha.acks] at hm
    exact absurd hm List.not_mem_nil
  · rw [hacks]
    exact hnext
  · rw [hacks, List.drop_eq_nil_of_le (by omega)] at hm
    exact absurd hm List.not_mem_nil

/-- The end of a batch, with what its trigger leaves in the queue. -/
theorem onTime_next (trigger : FlushTrigger) (hp : s.loop.phase = .next trigger)
    (ha : s.loop.acc.Empty) (hlen : s.queue.length ≤ 2 * cfg.source.capacity)
    (hall : Fresh arrived s.queue 0 now (3 * cfg.flushTime))
    (hnext : trigger ≠ .shutdown → Fresh arrived s.queue 0 now (2 * cfg.flushTime) ∧
      Fresh arrived s.queue cfg.source.capacity now cfg.flushTime) :
    OnTime cfg now taken arrived s := by
  have hwait : trigger ≠ .shutdown → Waiting cfg now arrived s := fun hne =>
    waiting_of_empty ha hlen (hnext hne).1 (hnext hne).2
  unfold OnTime
  rw [hp]
  cases trigger with
  | shutdown => exact hall
  | count => exact hwait nofun
  | bytes => exact hwait nofun
  | interval => exact hwait nofun

/-- A full batch, or one whose time is up, leaves little in the queue. -/
theorem Waiting.next (h : Waiting cfg now arrived s) (hF : 0 < cfg.source.policy.flushInterval)
    (hcause : cfg.source.capacity ≤ s.loop.acc.acks.length ∨
      ∃ t : Nat, s.loop.acc.firstSeen = some t ∧ cfg.source.policy.flushInterval ≤ now - t) :
    Fresh arrived s.queue 0 now cfg.flushTime ∧ Fresh arrived s.queue cfg.source.capacity now 0 := by
  rcases hcause with hfull | ⟨t, ht, hage⟩
  · exact ⟨h.batch.mono (by omega) le_rfl, h.beyond.mono (by omega) le_rfl⟩
  · have hidle := h.idle t ht (by omega)
    exact ⟨hidle.mono le_rfl (by omega), hidle.mono (Nat.zero_le _) le_rfl⟩

/-- A batch is taken: a full one, one whose time is up, or the last. -/
theorem Waiting.flush (h : Waiting cfg now arrived s) (taken : Nat) (trigger : FlushTrigger)
    (hlen : s.queue.length ≤ 2 * cfg.source.capacity)
    (hnext : trigger ≠ .shutdown → Fresh arrived s.queue 0 now cfg.flushTime ∧
      Fresh arrived s.queue cfg.source.capacity now 0) :
    OnTime cfg now (if flushing { s with loop := s.loop.flush trigger } then now else taken) arrived
      { s with loop := s.loop.flush trigger } := by
  have hqueue : ({ s with loop := s.loop.flush trigger } : Source.State).queue = s.queue := by
    simp [State.queue, flush_channel]
  have hacc : (s.loop.flush trigger).acc.Empty := by
    rw [flush_acc]
    exact ⟨rfl, rfl⟩
  generalize hs₁ : ({ s with loop := s.loop.flush trigger } : Source.State) = s₁ at hqueue ⊢
  have hloop : s₁.loop = s.loop.flush trigger := by rw [← hs₁]
  by_cases he : (s.loop.acc.take trigger).1.isEmpty = true
  · refine onTime_next trigger ?_ (hloop ▸ hacc) (hqueue ▸ hlen) ?_ fun hne => ?_
    · rw [hloop, Batcher.State.flush]
      dsimp only
      rw [if_pos he]
    · rw [hqueue]
      exact h.all.mono le_rfl (by omega)
    · rw [hqueue]
      exact ⟨h.all, (hnext hne).2.mono le_rfl (by omega)⟩
  · have hphase : s₁.loop.phase = .flushing (s.loop.acc.take trigger).1 := by
      rw [hloop, Batcher.State.flush]
      dsimp only
      rw [if_neg he]
    have hfl : flushing s₁ = true := by rw [flushing, hphase]
    rw [if_pos hfl, OnTime, hphase]
    refine ⟨le_rfl, Nat.le_add_right _ _, fun m hm => ?_, hqueue ▸ h.all, fun hne => ?_⟩
    · rw [hphase] at hm
      obtain ⟨t, ht, hle⟩ := h.buffered m hm
      have := (h.timer t ht).2
      omega
    · rw [hqueue]
      exact hnext hne

/-- A flush ends. -/
theorem Flushing.ends {trigger : FlushTrigger} {loop : Batcher.State}
    (h : Flushing cfg now taken arrived s trigger) (hlen : s.queue.length ≤ 2 * cfg.source.capacity)
    (hc : loop.channel = s.loop.channel) (ha : loop.acc.Empty)
    (hp : loop.phase = .next trigger) : OnTime cfg now taken arrived { s with loop } := by
  have hqueue : ({ s with loop } : Source.State).queue = s.queue := by simp [State.queue, hc]
  have hin := h.inTime
  refine onTime_next trigger hp ha (hqueue ▸ hlen) ?_ fun hne => ?_
  · rw [hqueue]
    exact h.all.mono le_rfl (by omega)
  · rw [hqueue]
    exact ⟨(h.next hne).1.mono le_rfl (by omega), (h.next hne).2.mono le_rfl (by omega)⟩

/-- The acks of a batch go on, or end. -/
theorem Flushing.acking {batch : MicroBatch} {written : WriteStats} {pending : List Ack} {n : Nat}
    {loop : Batcher.State} (h : Flushing cfg now taken arrived s batch.trigger)
    (hlen : s.queue.length ≤ 2 * cfg.source.capacity) (hc : loop.channel = s.loop.channel)
    (ha : loop.acc.Empty)
    (hpend : ∀ m ∈ handles pending, m ∈ handles s.loop.phase.acks) :
    OnTime cfg now taken arrived { s with loop := loop.acking batch written pending n } := by
  unfold Batcher.State.acking
  split
  · exact h.ends hlen hc ha rfl
  · have hqueue : ({ s with loop := { loop with phase := .acking batch written pending n } } :
        Source.State).queue = s.queue := by simp [State.queue, hc]
    exact ⟨h.past, h.inTime, fun m hm => h.batch m (hpend m hm), hqueue ▸ h.all,
      fun hne => hqueue ▸ h.next hne⟩

/-! ## Every step -/

/-- `Fits` with what the pull loop sends. -/
structure Fitting (size : Nat) (s : Source.State) : Prop where
  loop : Fits size s.loop
  sending : ∀ d envelope, s.puller = .sending d envelope →
    (∃ msg, envelope.ack = .nats msg) ∧ envelope.bytes ≤ size

/-- What holds in every state of every run. -/
structure Inv (cfg : Config) (decode : List UInt8 → Option TradeEvent)
    (stream : Nat → Option (List UInt8)) (size : Nat) (s : State) : Prop where
  source : Source.Inv decode stream s.source
  limited : Limited cfg.source s.source
  loaded : Loaded cfg.source.policy s.source.loop
  fitting : Fitting size s.source
  onTime : OnTime cfg s.now s.takenAt (fun m => s.deliveredAt m.delivery) s.source

end

section
variable {cfg : Config} {decode : List UInt8 → Option TradeEvent}
  {stream : Nat → Option (List UInt8)} {size : Nat} {s s' : Source.State} {a : Source.Action}

theorem setFetch_sending {p : Puller} {d d' d₁ : Draining} {envelope : Envelope}
    (h : p.fetch? = some d) (hs : p.setFetch d' = .sending d₁ envelope) :
    ∃ d₀, p = .sending d₀ envelope := by
  cases p with
  | fetching => cases h
  | draining _ => cases hs
  | acking _ _ => cases hs
  | sending d₀ _ => cases hs; exact ⟨d₀, rfl⟩
  | sleeping => cases h
  | returned => cases h

/-- What is sent was read from the fetch, or was being sent. -/
theorem pulls_sending {p p' : Puller} {d : Draining} {envelope : Envelope}
    (h : Pulls cfg.source decode p p') (hs : p' = .sending d envelope) :
    (∃ d₀, p = .sending d₀ envelope) ∨
      ∃ msg ∈ p.messages, envelope.ack = .nats msg ∧ envelope.bytes = msg.payload.length := by
  cases h with
  | fetched => cases hs
  | refused => cases hs
  | fail h₀ _ => exact .inl (setFetch_sending h₀ hs)
  | close h₀ => exact .inl (setFetch_sending h₀ hs)
  | @good d₀ msg _ _ ha _ =>
    cases hs
    refine .inr ⟨msg, ?_, rfl, rfl⟩
    rw [Puller.messages, Draining.messages_ok ha]
    exact List.mem_cons_self
  | bad _ _ => cases hs
  | ended =>
    unfold Draining.outcome at hs
    split at hs <;> cases hs
  | wake => cases hs

theorem fitting_step (hstream : ∀ seq payload, stream seq = some payload → payload.length ≤ size)
    (hinv : Source.Inv decode stream s) (h : Fitting size s)
    (hs : Source.step cfg.source decode stream s a = some s') : Fitting size s' := by
  cases Source.step_takes hs with
  | @pull _ p hp =>
    refine ⟨h.loop, fun d₁ envelope hsend => ?_⟩
    rcases pulls_sending hp hsend with ⟨d₀, hp⟩ | ⟨msg, hm, hack, hbytes⟩
    · exact h.sending d₀ envelope hp
    · have hpay := hinv.handed.payload msg (List.mem_append_right _ hm)
      exact ⟨⟨msg, hack⟩, hbytes ▸ hstream msg.seq msg.payload hpay⟩
  | arrive hd _ _ _ =>
    refine ⟨h.loop.frame rfl rfl, fun d₁ envelope hsend => ?_⟩
    obtain ⟨d₀, hp⟩ := setFetch_sending hd hsend
    exact h.sending d₀ envelope hp
  | ackBad _ => exact ⟨h.loop.frame rfl rfl, nofun⟩
  | gone _ => exact ⟨h.loop.frame rfl rfl, nofun⟩
  | @send d envelope hp _ =>
    refine ⟨⟨fun env he => ?_, h.loop.buffered⟩, nofun⟩
    rcases List.mem_append.1 he with he | he
    · exact h.loop.channel env he
    · rw [List.mem_singleton.1 he]
      exact h.sending d envelope hp
  | loop hl hd _ => exact ⟨fits_step h.loop hl hd, h.sending⟩
  | crash => exact ⟨⟨nofun, Nat.zero_le _⟩, nofun⟩

end

/-- Settings under which a batch closes by count or by age, and a fetch is no more than a batch. -/
structure Roomy (cfg : Config) (size : Nat) : Prop where
  flushInterval : 0 < cfg.source.policy.flushInterval
  fetchBatch : max cfg.source.fetchBatch 1 ≤ cfg.source.capacity
  bytes : cfg.source.policy.maxRecords * max size 1 ≤ cfg.source.policy.maxBytes

section
variable {cfg : Config} {decode : List UInt8 → Option TradeEvent}
  {stream : Nat → Option (List UInt8)} {size : Nat} {s s' : State} {a : Action}

theorem Inv.queue_length (h : Inv cfg decode stream size s) (hr : Roomy cfg size) :
    s.source.queue.length ≤ 2 * cfg.source.capacity := by
  have h1 : (handles (s.source.loop.channel.map (·.ack))).length ≤ s.source.loop.channel.length :=
    (List.length_filterMap_le _ _).trans (List.length_map _).le
  have h2 := h.limited.channel
  have h3 := h.limited.messages_le
  have h4 := hr.fetchBatch
  rw [State.queue, List.length_append]
  omega

/-- The clocks that go with a step of the batch loop. -/
def State.taken (s : State) (source : Source.State) : Nat :=
  if flushing source && !flushing s.source then s.now else s.takenAt

theorem Inv.waiting (h : Inv cfg decode stream size s) (hp : s.source.loop.phase = .waiting) :
    Waiting cfg s.now (fun m => s.deliveredAt m.delivery) s.source := by
  have := h.onTime
  unfold OnTime at this
  rwa [hp] at this

theorem Inv.whileFlushing (h : Inv cfg decode stream size s) {batch : MicroBatch}
    (hp : s.source.loop.phase = .flushing batch) :
    Flushing cfg s.now s.takenAt (fun m => s.deliveredAt m.delivery) s.source batch.trigger := by
  have := h.onTime
  unfold OnTime at this
  rwa [hp] at this

theorem Inv.whileAcking (h : Inv cfg decode stream size s) {batch : MicroBatch} {written : WriteStats}
    {pending : List Ack} {n : Nat} (hp : s.source.loop.phase = .acking batch written pending n) :
    Flushing cfg s.now s.takenAt (fun m => s.deliveredAt m.delivery) s.source batch.trigger := by
  have := h.onTime
  unfold OnTime at this
  rwa [hp] at this

/-- Nothing is buffered while the loop is not in `select!`. -/
theorem Inv.empty (h : Inv cfg decode stream size s) (hp : s.source.loop.phase ≠ .waiting) :
    s.source.loop.acc.Empty := by
  obtain ⟨es, hes⟩ := h.loaded.holds
  have hacks := h.loaded.busy hp
  exact ⟨hacks, hes.firstSeen.1 (hes.rows_nil.2 hacks)⟩

/-- A batch is taken in `select!`, for a cause. -/
theorem Inv.flush (h : Inv cfg decode stream size s) (hr : Roomy cfg size)
    (hp : s.source.loop.phase = .waiting) {b : Batcher.State}
    (hw : Waiting cfg s.now (fun m => s.deliveredAt m.delivery) { s.source with loop := b })
    (hlen : { s.source with loop := b }.queue.length ≤ s.source.queue.length)
    {trigger : FlushTrigger} (hcause : trigger ≠ .shutdown →
      cfg.source.capacity ≤ b.acc.acks.length ∨
      ∃ t : Nat, b.acc.firstSeen = some t ∧ cfg.source.policy.flushInterval ≤ s.now - t) :
    OnTime cfg s.now (s.taken { s.source with loop := b.flush trigger })
      (fun m => s.deliveredAt m.delivery) { s.source with loop := b.flush trigger } := by
  have hf : flushing s.source = false := by rw [flushing, hp]
  have hlen' := hlen.trans (h.queue_length hr)
  have hflush := hw.flush s.takenAt trigger hlen' fun hne =>
    hw.next hr.flushInterval (hcause hne)
  simpa [State.taken, hf] using hflush

theorem Inv.recv (h : Inv cfg decode stream size s) (hr : Roomy cfg size) {loop : Batcher.State}
    (hs : Batcher.step cfg.source.toConfig decode (fun _ => []) s.source.loop
      (.recv s.now s.now s.now) = some loop) :
    OnTime cfg s.now (s.taken { s.source with loop }) (fun m => s.deliveredAt m.delivery)
      { s.source with loop } := by
  simp only [Batcher.step] at hs
  split at hs
  · rename_i envelope channel hp hc
    obtain ⟨es, hes⟩ := h.loaded.holds
    obtain ⟨msg, hm⟩ := (h.fitting.loop.channel envelope (hc ▸ List.mem_cons_self)).1
    have hw := (h.waiting hp).push hes hc hm
    have hfits := h.fitting.loop.push hc s.now s.now
    have hpol : (s.source.loop.acc.push envelope s.now s.now).2.policy = cfg.source.policy := by
      rw [Accumulator.push_policy, h.loaded.policy_eq]
    cases hs
    split
    · rename_i hfull
      rw [Caller.push_fst, Accumulator.due, Option.isSome_iff_exists] at hfull
      obtain ⟨trigger, ht⟩ := hfull
      obtain ⟨hne, hrows, hcause⟩ := triggerNow_cases ht
        (hfits.bytes_lt (by rw [hpol]; exact hr.bytes))
      rw [ht, Option.getD_some]
      refine h.flush hr hp hw ?_ fun _ => hcause.imp (fun hcount => ?_) fun hage => ?_
      · rw [queue_recv hc hm]
        exact Nat.le_succ _
      · have hacks : Holds (s.source.loop.acc.push envelope s.now s.now).2 (es ++ [envelope]) :=
          hes.push
        have := hacks.duplicates
        have := List.length_pos_iff.2 hrows
        rw [hpol] at hcount
        have hle : max cfg.source.policy.maxRecords 1 ≤
            (s.source.loop.acc.push envelope s.now s.now).2.acks.length := by omega
        exact hle
      · rw [← hpol]
        exact ageExceeded_iff.1 hage
    · exact hw.onTime hp
  · cases hs

/-- A step that does not take a batch leaves the time of the last one. -/
theorem taken_eq {source : Source.State} (h : flushing source = true → flushing s.source = true) :
    s.taken source = s.takenAt := by
  unfold State.taken
  cases hf : flushing source with
  | false => rfl
  | true => simp [h hf]

theorem not_flushing_acking {source : Source.State} {b : Batcher.State} {batch : MicroBatch}
    {written : WriteStats} {pending : List Ack} {n : Nat} :
    flushing { source with loop := b.acking batch written pending n } = false := by
  cases hp : (b.acking batch written pending n).phase with
  | waiting => rw [flushing, hp]
  | flushing _ => exact absurd hp acking_ne_flushing
  | acking _ _ _ _ => rw [flushing, hp]
  | stopped => rw [flushing, hp]

theorem Inv.loop (h : Inv cfg decode stream size s) (hr : Roomy cfg size) {a : Batcher.Action}
    {loop : Batcher.State} (hpunct : s.Punctual cfg (.loop a))
    (hs : Batcher.step cfg.source.toConfig decode (fun _ => []) s.source.loop a = some loop)
    (hd : ∀ seq reply, a ≠ .deliver seq reply) (hc : a ≠ .crash) :
    OnTime cfg s.now (s.taken { s.source with loop }) (fun m => s.deliveredAt m.delivery)
      { s.source with loop } := by
  have hlen := h.queue_length hr
  cases a with
  | deliver seq reply => exact absurd rfl (hd seq reply)
  | crash => exact absurd rfl hc
  | recv seen now flushNow =>
    obtain ⟨rfl, rfl, rfl⟩ := hpunct
    exact h.recv hr hs
  | due now =>
    cases (show now = s.now from hpunct)
    simp only [Batcher.step] at hs
    split at hs
    · rename_i hp
      split at hs
      · rename_i hdue
        cases hs
        refine h.flush hr hp (h.waiting hp) le_rfl fun _ => .inr ?_
        rw [← h.loaded.policy_eq]
        refine ageExceeded_iff.1 ?_
        rw [Accumulator.ageExceeded, hdue]
        rfl
      · cases hs
    · cases hs
  | stop =>
    simp only [Batcher.step] at hs
    split at hs
    · rename_i hp
      cases hs
      exact h.flush hr hp (h.waiting hp) le_rfl fun hne => absurd rfl hne
    · cases hs
  | write ops =>
    simp only [Batcher.step] at hs
    split at hs
    · rename_i batch hp
      have hflush := h.whileFlushing hp
      have hempty := h.empty (by simp [hp])
      cases hs
      rw [taken_eq fun _ => by rw [flushing, hp]]
      unfold Batcher.State.written
      split
      · refine hflush.acking hlen rfl hempty fun m hm => ?_
        rw [hp]
        exact hm
      · exact hflush.ends hlen rfl hempty rfl
    · cases hs
  | ack i reply =>
    simp only [Batcher.step] at hs
    split at hs
    · rename_i batch written pending n hp
      split at hs
      · obtain ⟨ack, hi, rfl⟩ := Option.map_eq_some_iff.1 hs
        have hflush := h.whileAcking hp
        have hup := upstream_invoke (s := s.source.loop) reply ack
        have hempty := h.empty (by simp [hp])
        rw [taken_eq fun hf => by rw [not_flushing_acking] at hf; cases hf]
        refine hflush.acking hlen ?_ (hup.acc ▸ hempty) fun m hm => ?_
        · cases ack <;> rfl
        · rw [hp]
          exact ((List.eraseIdx_sublist _ _).filterMap _).subset hm
      · cases hs
    · cases hs
  | foreign files =>
    simp only [Batcher.step] at hs
    split at hs
    · cases hs
      have ht : s.taken { s.source with loop := { s.source.loop with
          world := { s.source.loop.world with lake := s.source.loop.world.lake.append files } } } =
          s.takenAt := taken_eq id
      rw [ht]
      exact h.onTime.frame rfl rfl (.of_sublist (List.Sublist.refl _)) fun _ _ => rfl
    · cases hs

theorem mem_held_of_queue {s : Source.State} {m : Message} (h : m ∈ s.queue) : m ∈ s.held := by
  rw [held_eq]
  exact List.mem_append_right _ h

/-- A delivery that is held came before the next. -/
theorem Inv.delivery_lt (h : Inv cfg decode stream size s) {m : Message} (hm : m ∈ s.source.held) :
    m.delivery < s.source.loop.deliveries :=
  h.source.handed.below m (held_subset_live hm)

theorem Inv.arrive (h : Inv cfg decode stream size s) {seq : Nat} {d : Draining}
    {payload : List UInt8} (hd : s.source.puller.fetch? = some d) :
    OnTime cfg s.now (s.taken (s.source.deliver d ⟨seq, s.source.loop.deliveries, payload⟩))
      (fun m => Function.update s.deliveredAt s.source.loop.deliveries s.now m.delivery)
      (s.source.deliver d ⟨seq, s.source.loop.deliveries, payload⟩) := by
  have hold : ∀ m ∈ s.source.held,
      Function.update s.deliveredAt s.source.loop.deliveries s.now m.delivery =
        s.deliveredAt m.delivery := fun m hm =>
    Function.update_of_ne (h.delivery_lt hm).ne _ _
  have hnew : Function.update s.deliveredAt s.source.loop.deliveries s.now
      s.source.loop.deliveries = s.now := Function.update_self _ _ _
  have ht : s.taken (s.source.deliver d ⟨seq, s.source.loop.deliveries, payload⟩) = s.takenAt :=
    taken_eq id
  rw [ht]
  refine h.onTime.frame rfl rfl (fun k m hm => ?_) fun m hm => hold m ?_
  · rw [deliver_queue hd, List.drop_append] at hm
    rcases List.mem_append.1 hm with hm | hm
    · exact .inl ⟨hm, hold m (mem_held_of_queue (List.mem_of_mem_drop hm))⟩
    · rw [List.mem_singleton.1 (List.mem_of_mem_drop hm)]
      exact .inr (Nat.le_of_eq hnew.symm)
  · rw [held_eq]
    exact List.mem_append_left _ hm

theorem Inv.other (h : Inv cfg decode stream size s) (hr : Roomy cfg size) {a : Source.Action}
    {source : Source.State} (hpunct : s.Punctual cfg a)
    (hs : Source.step cfg.source decode stream s.source a = some source)
    (ha : ∀ seq, a ≠ .arrive seq) :
    OnTime cfg s.now (s.taken source) (fun m => s.deliveredAt m.delivery) source := by
  cases Source.step_takes hs with
  | @pull _ p hp =>
    have ht : s.taken { s.source with puller := p } = s.takenAt := taken_eq id
    rw [ht]
    exact h.onTime.frame rfl rfl (.of_sublist ((pulls_messages hp).append_left _)) fun _ _ => rfl
  | arrive _ _ _ _ => exact absurd rfl (ha _)
  | @ackBad reply d msg hp =>
    have ht : s.taken { s.source with
        puller := .draining d, loop := s.source.loop.invoke reply (.nats msg) } = s.takenAt :=
      taken_eq id
    rw [ht]
    refine h.onTime.frame rfl rfl (.of_sublist ?_) fun _ _ => rfl
    rw [State.queue, State.queue, hp]
    exact (List.sublist_cons_self _ _).append_left _
  | @gone d envelope hp =>
    have ht : s.taken { s.source with
        puller := .returned, loop := { s.source.loop with sourceStopped := true } } = s.takenAt :=
      taken_eq id
    rw [ht]
    exact h.onTime.frame rfl rfl (.of_sublist ((List.nil_sublist _).append_left _)) fun _ _ => rfl
  | @send d envelope hp hc =>
    have ht : s.taken { s.source with puller := .draining d, loop := { s.source.loop with
        channel := s.source.loop.channel ++ [envelope] } } = s.takenAt := taken_eq id
    have hq : ({ s.source with puller := .draining d, loop := { s.source.loop with
        channel := s.source.loop.channel ++ [envelope] } } : Source.State).queue =
        s.source.queue := by
      simp [State.queue, hp, Puller.messages, handles]
    rw [ht]
    exact h.onTime.frame rfl rfl (.of_sublist (hq ▸ List.Sublist.refl _)) fun _ _ => rfl
  | loop hl hd hc => exact h.loop hr hpunct hl hd hc
  | crash =>
    refine Waiting.onTime (waiting_of_empty ⟨rfl, rfl⟩ (Nat.zero_le _) ?_ ?_) rfl
    · exact fresh_nil
    · exact fresh_nil

/-- While the pull loop waits on an empty channel nothing is queued. -/
theorem queue_nil (hc : s.source.loop.channel.isEmpty = true) (hp : s.PullWaits cfg) :
    s.source.queue = [] := by
  rw [List.isEmpty_iff] at hc
  unfold State.PullWaits at hp
  have hm : s.source.puller.messages = [] := by
    cases hpull : s.source.puller with
    | fetching => rfl
    | draining d =>
      rw [hpull] at hp
      rw [Puller.messages, Draining.messages, List.isEmpty_iff.1 hp.1]
      rfl
    | acking d msg =>
      rw [hpull] at hp
      exact hp.elim
    | sending d envelope =>
      rw [hpull, hc] at hp
      have : 1 ≤ cfg.source.capacity := Nat.le_max_right _ _
      exact absurd (this.trans hp) (by decide)
    | sleeping => rfl
    | returned => rfl
  rw [State.queue, hc, hm]
  rfl

theorem Inv.tick (h : Inv cfg decode stream size s) {d : Nat} (hp : s.PullWaits cfg)
    (hl : s.LoopWaits cfg d) :
    OnTime cfg (s.now + d) s.takenAt (fun m => s.deliveredAt m.delivery) s.source := by
  have ht := h.onTime
  have hflush : ∀ {trigger}, s.now + d ≤ s.takenAt + cfg.flushTime →
      Flushing cfg s.now s.takenAt (fun m => s.deliveredAt m.delivery) s.source trigger →
      Flushing cfg (s.now + d) s.takenAt (fun m => s.deliveredAt m.delivery) s.source trigger :=
    fun hle hf => ⟨hf.past.trans (Nat.le_add_right _ _), hle, hf.batch, hf.all, hf.next⟩
  unfold State.LoopWaits at hl
  unfold OnTime at ht ⊢
  cases hph : s.source.loop.phase with
  | waiting =>
    rw [hph] at hl ht
    simp only at hl ht ⊢
    have hnil := queue_nil hl.1 hp
    have hfresh : ∀ {k t d}, Fresh (fun m => s.deliveredAt m.delivery) s.source.queue k t d := by
      rw [hnil]
      exact fresh_nil
    refine ⟨fun t hf => ?_, ht.buffered, hfresh, hfresh, hfresh, fun _ _ _ => hfresh⟩
    have hleft := hl.2 _ (Option.map_eq_some_iff.2 ⟨t, hf, rfl⟩)
    have htimer := ht.timer t hf
    rw [h.loaded.policy_eq] at hleft
    have hle : d ≤ cfg.source.policy.flushInterval - (s.now - t) := hleft
    omega
  | flushing batch =>
    rw [hph] at hl ht
    exact hflush hl ht
  | acking batch written pending n =>
    rw [hph] at hl ht
    exact hflush hl ht
  | stopped =>
    rw [hph] at hl
    exact hl.elim

theorem after_other {source : Source.State} {a : Source.Action} (ha : ∀ seq, a ≠ .arrive seq) :
    s.after source a = { s with source, takenAt := s.taken source } := by
  cases a with
  | arrive seq => exact absurd rfl (ha seq)
  | _ => rfl

/-- What a step can do: time passes, a message arrives, or the rest. -/
inductive Takes (cfg : Config) (decode : List UInt8 → Option TradeEvent)
    (stream : Nat → Option (List UInt8)) (s : State) : Action → State → Prop
  | tick {d : Nat} (hp : s.PullWaits cfg) (hl : s.LoopWaits cfg d) :
      Takes cfg decode stream s (.tick d) { s with now := s.now + d }
  | arrive {seq : Nat} {d : Draining} {payload : List UInt8} (hp : s.Punctual cfg (.arrive seq))
      (hs : Source.step cfg.source decode stream s.source (.arrive seq) =
        some (s.source.deliver d ⟨seq, s.source.loop.deliveries, payload⟩))
      (hd : s.source.puller.fetch? = some d) :
      Takes cfg decode stream s (.step (.arrive seq))
        (s.after (s.source.deliver d ⟨seq, s.source.loop.deliveries, payload⟩) (.arrive seq))
  | other {a : Source.Action} {source : Source.State} (hp : s.Punctual cfg a)
      (hs : Source.step cfg.source decode stream s.source a = some source)
      (ha : ∀ seq, a ≠ .arrive seq) :
      Takes cfg decode stream s (.step a) { s with source, takenAt := s.taken source }

theorem step_takes (hs : step cfg decode stream s a = some s') : Takes cfg decode stream s a s' := by
  cases a with
  | tick d =>
    simp only [step] at hs
    split at hs
    · rename_i hw
      cases hs
      exact .tick hw.1 hw.2
    · cases hs
  | step a =>
    simp only [step] at hs
    split at hs
    · rename_i hpunct
      obtain ⟨source, hsrc, rfl⟩ := Option.map_eq_some_iff.1 hs
      by_cases ha : ∀ seq, a ≠ .arrive seq
      · rw [after_other ha]
        exact .other hpunct hsrc ha
      · push Not at ha
        obtain ⟨seq, rfl⟩ := ha
        obtain ⟨d, payload, hd, rfl⟩ := arrive_cases hsrc
        exact .arrive hpunct hsrc hd
    · cases hs

theorem inv_start {lake : Lake} (hl : lake.table.schema = Trades.schema) :
    Inv cfg decode stream size (.start cfg lake) where
  source := Source.inv_start hl
  limited := limited_start
  loaded := .new rfl rfl
  fitting := ⟨⟨nofun, Nat.zero_le _⟩, nofun⟩
  onTime := Waiting.onTime (waiting_of_empty ⟨rfl, rfl⟩ (Nat.zero_le _) fresh_nil fresh_nil) rfl

theorem inv_step (hr : Roomy cfg size)
    (hstream : ∀ seq payload, stream seq = some payload → payload.length ≤ size)
    (h : Inv cfg decode stream size s) (hs : step cfg decode stream s a = some s') :
    Inv cfg decode stream size s' := by
  cases step_takes hs with
  | tick hp hl => exact ⟨h.source, h.limited, h.loaded, h.fitting, h.tick hp hl⟩
  | arrive _ hsrc hd =>
    exact ⟨Source.inv_step h.source hsrc, limited_step h.limited hsrc, loaded_source h.loaded hsrc,
      fitting_step hstream h.source h.fitting hsrc, h.arrive hd⟩
  | other hpunct hsrc ha =>
    exact ⟨Source.inv_step h.source hsrc, limited_step h.limited hsrc, loaded_source h.loaded hsrc,
      fitting_step hstream h.source h.fitting hsrc, h.other hr hpunct hsrc ha⟩

/-- What the process holds is young. -/
theorem Inv.held_le (h : Inv cfg decode stream size s) {m : Message} (hm : m ∈ s.source.held) :
    s.now ≤ s.deliveredAt m.delivery + cfg.source.policy.flushInterval + 3 * cfg.flushTime := by
  have ht := h.onTime
  unfold OnTime at ht
  rw [held_eq, List.mem_append, List.mem_append] at hm
  have hflush : ∀ {trigger}, s.source.loop.phase ≠ .waiting →
      Flushing cfg s.now s.takenAt (fun m => s.deliveredAt m.delivery) s.source trigger →
      s.now ≤ s.deliveredAt m.delivery + cfg.source.policy.flushInterval + 3 * cfg.flushTime :=
    fun hne hf => by
      have hin := hf.inTime
      rcases hm with (hm | hm) | hm
      · have := hf.batch m hm
        omega
      · rw [(h.empty hne).acks] at hm
        exact absurd hm List.not_mem_nil
      · have := hf.all m hm
        omega
  cases hph : s.source.loop.phase with
  | waiting =>
    rw [hph] at ht hm
    rcases hm with (hm | hm) | hm
    · exact absurd hm List.not_mem_nil
    · obtain ⟨t, hf, hle⟩ := ht.buffered m hm
      have := (ht.timer t hf).2
      omega
    · have := ht.all m hm
      omega
  | flushing batch =>
    rw [hph] at ht
    exact hflush (by rw [hph]; nofun) ht
  | acking batch written pending n =>
    rw [hph] at ht
    exact hflush (by rw [hph]; nofun) ht
  | stopped =>
    rw [hph] at ht hm
    rcases hm with (hm | hm) | hm
    · exact absurd hm List.not_mem_nil
    · rw [(h.empty (by rw [hph]; nofun)).acks] at hm
      exact absurd hm List.not_mem_nil
    · have : s.now ≤ s.deliveredAt m.delivery + 3 * cfg.flushTime := ht m hm
      omega

/-! ## One delivery at a time -/

/-- Each message in the process is there once, in its last delivery. -/
structure Once (s : State) : Prop where
  once : (s.source.held.map (·.seq)).Nodup
  last : ∀ m ∈ s.source.held, s.lastDelivered m.seq = some (s.deliveredAt m.delivery)

theorem once_step (hinv : Inv cfg decode stream size s)
    (hack : cfg.source.policy.flushInterval + 3 * cfg.flushTime < cfg.ackWait) (h : Once s)
    (hs : step cfg decode stream s a = some s') : Once s' := by
  cases step_takes hs with
  | tick _ _ => exact ⟨h.once, h.last⟩
  | other _ hsrc ha =>
    have hsub := held_sublist hsrc ha
    exact ⟨h.once.sublist (hsub.map _), fun m hm => h.last m (hsub.subset hm)⟩
  | @arrive seq d payload hpunct _ hd =>
    have hnew : ∀ m ∈ s.source.held, m.seq ≠ seq := fun m hm heq => by
      have hlast := h.last m hm
      rw [heq] at hlast
      have htime : s.deliveredAt m.delivery + cfg.ackWait ≤ s.now := hpunct _ hlast
      have := hinv.held_le hm
      omega
    have hheld := deliver_held hd ⟨seq, s.source.loop.deliveries, payload⟩
    refine ⟨?_, fun m hm => ?_⟩
    · show ((s.source.deliver d _).held.map (·.seq)).Nodup
      rw [hheld, List.map_append]
      refine List.nodup_append.2 ⟨h.once, List.nodup_singleton _, fun n hn n' hn' => ?_⟩
      obtain ⟨m, hm, rfl⟩ := List.mem_map.1 hn
      rw [List.mem_singleton.1 hn']
      exact hnew m hm
    · show Function.update s.lastDelivered seq (some s.now) m.seq = some (Function.update
        s.deliveredAt s.source.loop.deliveries s.now m.delivery)
      replace hm : m ∈ s.source.held ++ [⟨seq, s.source.loop.deliveries, payload⟩] := hheld ▸ hm
      rcases List.mem_append.1 hm with hm | hm
      · rw [Function.update_of_ne (hnew m hm), Function.update_of_ne (hinv.delivery_lt hm).ne]
        exact h.last m hm
      · rw [List.mem_singleton.1 hm]
        simp

/-! ## Every run -/

/-- **Held briefly.** Every delivery in the process arrived no longer ago than a flush interval and
three flushes, whatever the traffic. -/
theorem held_briefly {lake : Lake} (hl : lake.table.schema = Trades.schema) (hr : Roomy cfg size)
    (hstream : ∀ seq payload, stream seq = some payload → payload.length ≤ size) {as : List Action}
    (h : Machine.run (step cfg decode stream) (.start cfg lake) as = some s) :
    ∀ m ∈ s.source.held, s.now ≤
      s.deliveredAt m.delivery + cfg.source.policy.flushInterval + 3 * cfg.flushTime := by
  have hinv : Inv cfg decode stream size s :=
    Machine.run_inv (fun _ _ _ h hs => inv_step hr hstream h hs) (inv_start hl) h
  exact fun m hm => hinv.held_le hm

/-- **Held once.** With the `ack_wait` that `effective_ack_wait` allows, and flushes that take no
longer than the flush interval and three seconds, no message is delivered again while the process
holds it. -/
theorem held_once {lake : Lake} (hl : lake.table.schema = Trades.schema) (hr : Roomy cfg size)
    (hstream : ∀ seq payload, stream seq = some payload → payload.length ≤ size) {configured : Nat}
    (hack : Settings.effectiveAckWait configured cfg.source.policy.flushInterval = .ok cfg.ackWait)
    (hflush : cfg.flushTime ≤ cfg.source.policy.flushInterval + 3000000000) {as : List Action}
    (h : Machine.run (step cfg decode stream) (.start cfg lake) as = some s) :
    (s.source.held.map (·.seq)).Nodup := by
  obtain ⟨-, hwait⟩ := Settings.effectiveAckWait_ok_iff.1 hack
  have hlt : cfg.source.policy.flushInterval + 3 * cfg.flushTime < cfg.ackWait := by omega
  have hboth : Inv cfg decode stream size s ∧ Once s := by
    refine Machine.run_inv (I := fun s => Inv cfg decode stream size s ∧ Once s)
      (fun _ _ _ hi hs => ?_) ⟨inv_start hl, List.nodup_nil, nofun⟩ h
    exact ⟨inv_step hr hstream hi.1 hs, once_step hi.1 hlt hi.2 hs⟩
  exact hboth.2.once

end

/-! ## A redelivery after a crash -/

/-- `smallFetches`, with flushes of three nanoseconds. -/
def quickFlushes : Config := ⟨smallFetches, 3, 10000000020⟩

/-- The trade is buffered, the process dies, and the consumer waits; the trade comes again, and its
batch is written when the acks begin. -/
def redeliveredTrade : List Action :=
  [.step (.fetch (.ok ())), .step (.arrive 0), .step .next, .step .send,
    .step (.loop (.recv 0 0 0)), .step .crash, .tick 10000000020, .step (.fetch (.ok ())),
    .step (.arrive 0), .step .next, .step .send,
    .step (.loop (.recv 10000000020 10000000020 10000000020)), .tick 5,
    .step (.loop (.due 10000000025)), .tick 3, .step (.loop (.write .allOk))]

theorem twoMessages_length : ∀ seq payload, twoMessages seq = some payload → payload.length ≤ 1
  | 0, _, rfl => by decide
  | 1, _, rfl => by decide
  | _ + 2, _, h => by cases h

theorem quickFlushes_roomy : Roomy quickFlushes 1 := ⟨by decide, by decide, by decide⟩

theorem held_briefly_redelivered : ∃ s,
    Machine.run (step quickFlushes decodeByte twoMessages) (.start quickFlushes .created)
      redeliveredTrade = some s ∧ s.source.held.map (·.delivery) = [1] ∧ s.now = 10000000028 ∧
    ∀ m ∈ s.source.held, s.now ≤ s.deliveredAt m.delivery + 5 + 3 * 3 := by
  have hx : (Machine.run (step quickFlushes decodeByte twoMessages) (.start quickFlushes .created)
      redeliveredTrade).map (fun s => (s.source.held.map (·.delivery), s.now)) =
        some ([1], 10000000028) := by decide +kernel
  obtain ⟨s, hs, heq⟩ := Option.map_eq_some_iff.1 hx
  obtain ⟨hheld, hnow⟩ := Prod.mk.inj heq
  exact ⟨s, hs, hheld, hnow, held_briefly rfl quickFlushes_roomy twoMessages_length hs⟩

theorem held_once_redelivered : ∃ s,
    Machine.run (step quickFlushes decodeByte twoMessages) (.start quickFlushes .created)
      redeliveredTrade = some s ∧ s.source.held.map (·.delivery) = [1] ∧
    (s.source.held.map (·.seq)).Nodup := by
  have hx : (Machine.run (step quickFlushes decodeByte twoMessages) (.start quickFlushes .created)
      redeliveredTrade).map (fun s => s.source.held.map (·.delivery)) = some [1] := by
    decide +kernel
  obtain ⟨s, hs, hheld⟩ := Option.map_eq_some_iff.1 hx
  have hack : Settings.effectiveAckWait 0 5 = .ok 10000000020 := by
    refine Settings.effectiveAckWait_ok_iff.2 ⟨by decide, by decide⟩
  exact ⟨s, hs, hheld, held_once rfl quickFlushes_roomy twoMessages_length hack (by decide) hs⟩

end Batcher.Redelivery
