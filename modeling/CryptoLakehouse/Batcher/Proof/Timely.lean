import CryptoLakehouse.Batcher.Proof.Redelivery

/-!
# Settled in time

As long as no fetch breaks and the process is not stopped or restarted, a delivery goes nowhere but
to the batch loop, and there to an ack or with a failed batch (`Kept`). With the bound on how long the
process holds one, each delivery is settled in time.

* `settled_in_time` — a flush interval and three flushes after it arrived, a delivery is in the table
  and acked, or was of no use, or its batch's write failed.
-/

namespace Batcher

open Trades Sink

section
variable {cfg : Config} {decode : List UInt8 → Option TradeEvent} {stream : Nat → List UInt8}
  {s s' : State} {a : Action}

/-- A batch that is passed over has no handle. -/
theorem count_flush {es : List Envelope} (h : Holds s.acc es) (hp : s.phase = .waiting)
    (t : FlushTrigger) (m : Message) : s.live.count m ≤ (s.flush t).live.count m := by
  unfold State.flush
  dsimp only
  split
  · rename_i he
    have hacks : s.acc.acks = [] := (h.take t).isEmpty.1 he
    simp only [State.live, hp, hacks, acks_waiting, next_acks, take_eq_new]
    exact le_rfl
  · simp only [State.live, hp, acks_waiting, acks_flushing, take_eq_new, List.count_append,
      handles_nil, List.count_nil]
    show _ ≤ _ + (handles []).count m + (handles s.acc.acks).count m + _ + _
    rw [handles_nil, List.count_nil]
    omega

theorem count_written {batch : MicroBatch} (hb : s.phase = .flushing batch) (ops : WriteOps)
    (m : Message) : s.live.count m ≤ (s.written batch ops).live.count m := by
  unfold State.written
  split
  · rename_i written w _
    have := live_acking (s := { s with
      world := w
      history := { s.history with committed := s.history.committed ++ [batch.rows] } })
      batch written batch.acks 0 m
    simp only [State.live, hb, acks_flushing, List.count_append] at this ⊢
    omega
  · simp only [State.live, hb, acks_flushing, next_acks, handles_append, List.count_append,
      handles_nil, List.count_nil]
    omega

theorem count_ack {batch : MicroBatch} {written : WriteStats} {pending : List Ack} {n i : Nat}
    {ack : Ack} (hp : s.phase = .acking batch written pending n) (hi : pending[i]? = some ack)
    (reply : Reply) (n' : Nat) (m : Message) : s.live.count m ≤
      ((s.invoke reply ack).acking batch written (pending.eraseIdx i) n').live.count m := by
  have h1 := live_acking (s := s.invoke reply ack) batch written (pending.eraseIdx i) n' m
  have h2 := live_invoke (s := s) reply ack m
  have h3 : (handles pending).count m =
      (handles [ack]).count m + (handles (pending.eraseIdx i)).count m := by
    obtain ⟨hlt, rfl⟩ := List.getElem?_eq_some_iff.1 hi
    rw [← List.count_append, ← handles_append]
    exact ((List.getElem_cons_eraseIdx_perm hlt).symm.filterMap _).count_eq m
  have h4 : (s.invoke reply ack).phase.acks = pending := by cases ack <;> simp [State.invoke, hp]
  rw [h4] at h1
  omega

/-- Without a crash the batch loop drops no handle. -/
theorem count_step {es : List Envelope} (h : Holds s.acc es)
    (hs : step cfg decode stream s a = some s') (hd : ∀ seq reply, a ≠ .deliver seq reply)
    (hc : a ≠ .crash) (m : Message) : s.live.count m ≤ s'.live.count m := by
  cases step_takes hs with
  | deliver _ => exact absurd rfl (hd _ _)
  | recv _ hch => exact (live_push hch _ _ m).ge
  | @recvFull seen now _ envelope channel hp hch t =>
    have hpush : Holds (s.acc.push envelope seen now).2 (es ++ [envelope]) := h.push
    have hflush := count_flush (s := { s with
      channel, acc := (s.acc.push envelope seen now).2 }) hpush hp t m
    exact (live_push hch seen now m).ge.trans hflush
  | flush hp t => exact count_flush h hp t m
  | write hb => exact count_written hb _ m
  | ack hp hi n' => exact count_ack hp hi _ n' m
  | crash => exact absurd rfl hc
  | foreign _ => exact le_rfl

/-! ## A loop that goes on -/

/-- No batch is the last one. -/
def Phase.GoesOn : Phase → Prop
  | .waiting => True
  | .flushing batch => batch.trigger ≠ .shutdown
  | .acking batch _ _ _ => batch.trigger ≠ .shutdown
  | .stopped => False

theorem goesOn_next {t : FlushTrigger} (h : t ≠ .shutdown) : (Phase.next t).GoesOn := by
  cases t with
  | shutdown => exact absurd rfl h
  | count => trivial
  | bytes => trivial
  | interval => trivial

theorem goesOn_flush {t : FlushTrigger} (h : t ≠ .shutdown) : (s.flush t).phase.GoesOn := by
  unfold State.flush
  dsimp only
  split
  · exact goesOn_next h
  · exact h

theorem goesOn_acking {batch : MicroBatch} {written : WriteStats} {pending : List Ack} {n : Nat}
    (h : batch.trigger ≠ .shutdown) : (s.acking batch written pending n).phase.GoesOn := by
  unfold State.acking
  split
  · exact goesOn_next h
  · exact h

theorem trigger_ne_shutdown (acc : Accumulator) (now : Instant) :
    (acc.triggerNow now).getD .bytes ≠ .shutdown := by
  unfold Accumulator.triggerNow
  repeat' split
  all_goals simp

theorem goesOn_step (h : s.phase.GoesOn) (hs : step cfg decode stream s a = some s')
    (hstop : a ≠ .stop) : s'.phase.GoesOn := by
  cases a with
  | deliver seq reply =>
    simp only [step] at hs
    split at hs
    · cases hs
      rw [(upstream_deliver _ _).phase]
      exact h
    · cases hs
  | recv seen now flushNow =>
    simp only [step] at hs
    split at hs
    · rename_i envelope channel hp hc
      cases hs
      split
      · exact goesOn_flush (trigger_ne_shutdown _ _)
      · exact h
    · cases hs
  | due now =>
    simp only [step] at hs
    split at hs
    · split at hs
      · cases hs
        exact goesOn_flush (by decide)
      · cases hs
    · cases hs
  | stop => exact absurd rfl hstop
  | write ops =>
    simp only [step] at hs
    split at hs
    · rename_i batch hp
      rw [hp] at h
      cases hs
      unfold State.written
      split
      · exact goesOn_acking h
      · exact goesOn_next h
    · cases hs
  | ack i reply =>
    simp only [step] at hs
    split at hs
    · rename_i batch written pending n hp
      rw [hp] at h
      split at hs
      · obtain ⟨ack, -, rfl⟩ := Option.map_eq_some_iff.1 hs
        exact goesOn_acking h
      · cases hs
    · cases hs
  | crash =>
    cases hs
    trivial
  | foreign files =>
    simp only [step] at hs
    split at hs
    · cases hs
      exact h
    · cases hs

end

end Batcher

namespace Batcher.Source

open Trades Sink

/-- No fetch breaks, and the process is neither stopped nor restarted. -/
def Calm : Action → Prop
  | .fail _ => False
  | .loop .stop => False
  | .crash => False
  | _ => True

/-- Nothing that was delivered is missing. -/
structure Kept (s : State) : Prop where
  goesOn : s.loop.phase.GoesOn
  /-- No item of the fetch under way is an error. -/
  whole : ∀ d, s.puller.fetch? = some d → ∀ why, Except.error why ∉ d.arrived
  kept : ∀ k < s.loop.deliveries, ∃ m ∈ s.live, m.delivery = k

section
variable {cfg : Config} {decode : List UInt8 → Option TradeEvent}
  {stream : Nat → Option (List UInt8)} {s s' : State} {a : Action}

/-- What is handed on is not dropped. -/
theorem Kept.of_subset (h : Kept s) (hg : s'.loop.phase.GoesOn)
    (hw : ∀ d, s'.puller.fetch? = some d → ∀ why, Except.error why ∉ d.arrived)
    (hd : s'.loop.deliveries = s.loop.deliveries) (hl : ∀ m ∈ s.live, m ∈ s'.live) : Kept s' := by
  refine ⟨hg, hw, fun k hk => ?_⟩
  obtain ⟨m, hm, he⟩ := h.kept k (hd ▸ hk)
  exact ⟨m, hl m hm, he⟩

/-- The pull loop alone. -/
theorem Kept.pull (h : Kept s) {p : Puller} (hm : s.puller.messages ⊆ p.messages)
    (hw : ∀ d, p.fetch? = some d → ∀ why, Except.error why ∉ d.arrived) :
    Kept { s with puller := p } := by
  refine h.of_subset h.goesOn hw rfl fun m hl => ?_
  rcases List.mem_append.1 hl with hl | hl
  · exact List.mem_append_left _ hl
  · exact List.mem_append_right _ (hm hl)

/-- The next delivery. -/
theorem Kept.arrive (h : Kept s) {d : Draining} (hd : s.puller.fetch? = some d) (seq : Nat)
    (payload : List UInt8) : Kept (s.deliver d ⟨seq, s.loop.deliveries, payload⟩) := by
  refine ⟨h.goesOn, fun d' hd' why hin => ?_, fun k hk => ?_⟩
  · rw [State.deliver] at hd'
    rw [setFetch_fetch hd hd'] at hin
    rcases List.mem_append.1 hin with hin | hin
    · exact h.whole d hd why hin
    · cases List.mem_singleton.1 hin
  · rw [deliver_live hd]
    rcases Nat.lt_succ_iff_lt_or_eq.1 hk with hk | rfl
    · obtain ⟨m, hm, he⟩ := h.kept k hk
      exact ⟨m, List.mem_append_left _ hm, he⟩
    · exact ⟨_, List.mem_append_right _ (List.mem_singleton_self _), rfl⟩

theorem Kept.ackBad (h : Kept s) {d : Draining} {msg : Message} (hp : s.puller = .acking d msg)
    (reply : Reply) :
    Kept { s with puller := .draining d, loop := s.loop.invoke reply (.nats msg) } := by
  refine h.of_subset h.goesOn (fun d' hd' => ?_) rfl fun m hm => (ackBad_live hp reply).mem_iff.2 hm
  cases hd'
  exact h.whole d (by rw [hp]; rfl)

theorem Kept.send (h : Kept s) {d : Draining} {envelope : Envelope}
    (hp : s.puller = .sending d envelope) : Kept { s with
      puller := .draining d, loop := { s.loop with channel := s.loop.channel ++ [envelope] } } := by
  refine h.of_subset h.goesOn (fun d' hd' => ?_) rfl fun m hm => (send_live hp).mem_iff.2 hm
  cases hd'
  exact h.whole d (by rw [hp]; rfl)

theorem Kept.loop (h : Kept s) (hload : Loaded cfg.policy s.loop) {a : Batcher.Action}
    {loop : Batcher.State}
    (hs : Batcher.step cfg.toConfig decode (fun _ => []) s.loop a = some loop)
    (hd : ∀ seq reply, a ≠ .deliver seq reply) (hc : a ≠ .crash) (hstop : a ≠ .stop) :
    Kept { s with loop } := by
  obtain ⟨es, hes⟩ := hload.holds
  refine h.of_subset (goesOn_step h.goesOn hs hstop) h.whole (keepsHandles_step hs hd).deliveries
    fun m hm => ?_
  rcases List.mem_append.1 hm with hm | hm
  · have hpos := List.count_pos_iff.2 hm
    have := count_step hes hs hd hc m
    exact List.mem_append_left _ (List.count_pos_iff.1 (Nat.lt_of_lt_of_le hpos this))
  · exact List.mem_append_right _ hm

theorem Kept.next (h : Kept s) {d : Draining} (hp : s.puller = .draining d) {p : Puller}
    (hn : d.next decode = some p) : Kept { s with puller := p } := by
  have hw := h.whole d (by rw [hp]; rfl)
  unfold Draining.next at hn
  split at hn
  · rename_i msg arrived ha
    have hrest : ∀ why, Except.error why ∉ arrived := fun why hin =>
      hw why (ha ▸ List.mem_cons_of_mem _ hin)
    split at hn
    · rename_i envelope he
      cases hn
      have hmsg : handles [envelope.ack] = [msg] := by
        unfold processMessage at he
        obtain ⟨e, -, rfl⟩ := Option.map_eq_some_iff.1 he
        rfl
      refine h.pull ?_ fun d' hd' => ?_
      · rw [hp, Puller.messages, Puller.messages, Draining.messages_ok ha, hmsg]
        exact List.Subset.refl _
      · cases hd'
        exact hrest
    · cases hn
      refine h.pull ?_ fun d' hd' => ?_
      · rw [hp, Puller.messages, Puller.messages, Draining.messages_ok ha]
        exact List.Subset.refl _
      · cases hd'
        exact hrest
  · rename_i why rest ha
    exact absurd (ha ▸ List.mem_cons_self) (hw why)
  · rename_i ha
    split at hn
    · cases hn
      refine h.pull ?_ fun d' hd' => ?_
      · rw [hp, Puller.messages, Draining.messages, ha]
        exact List.nil_subset _
      · unfold Draining.outcome at hd'
        split at hd' <;> cases hd'
    · cases hn

theorem kept_step (hload : Loaded cfg.policy s.loop) (hcalm : Calm a) (h : Kept s)
    (hs : step cfg decode stream s a = some s') : Kept s' := by
  cases a with
  | fetch reply =>
    simp only [step] at hs
    split at hs
    · rename_i hp
      split at hs
      · cases hs
        refine h.pull (by rw [hp]; exact List.nil_subset _) fun d hd => ?_
        cases hd
        exact fun _ hin => absurd hin List.not_mem_nil
      · cases hs
        exact h.pull (by rw [hp]; exact List.nil_subset _) fun d hd => by cases hd
    · cases hs
  | arrive seq =>
    obtain ⟨d, payload, hd, rfl⟩ := arrive_cases hs
    exact h.arrive hd seq payload
  | fail why => exact hcalm.elim
  | close =>
    obtain ⟨d, hd, rfl⟩ := Option.map_eq_some_iff.1 hs
    refine h.pull ?_ fun d' hd' => ?_
    · rw [setFetch_messages hd _ [] (by simp [Draining.messages]), List.append_nil]
      exact List.Subset.refl _
    · rw [setFetch_fetch hd hd']
      exact h.whole d hd
  | next =>
    simp only [step] at hs
    split at hs
    · rename_i hp
      obtain ⟨p, hn, rfl⟩ := Option.map_eq_some_iff.1 hs
      exact h.next hp hn
    · cases hs
  | ackBad reply =>
    simp only [step] at hs
    split at hs
    · rename_i d msg hp
      cases hs
      exact h.ackBad hp reply
    · cases hs
  | send =>
    simp only [step, State.send] at hs
    split at hs
    · rename_i d envelope hp
      split at hs
      · rename_i hph
        have := h.goesOn
        rw [hph] at this
        exact this.elim
      · split at hs
        · cases hs
          exact h.send hp
        · cases hs
    · cases hs
  | wake =>
    simp only [step] at hs
    split at hs
    · rename_i hp
      cases hs
      exact h.pull (by rw [hp]; exact List.nil_subset _) fun d hd => by cases hd
    · cases hs
  | loop a =>
    obtain ⟨hd, hc, loop, hl, rfl⟩ := step_loop_cases hs
    exact h.loop hload hl hd hc fun he => by
      rw [he] at hcalm
      exact hcalm
  | crash => exact hcalm.elim

end

end Batcher.Source

namespace Batcher.Redelivery

open Trades Sink Source

/-- No fetch breaks, and the process is neither stopped nor restarted. -/
def Calm : Action → Prop
  | .tick _ => True
  | .step a => Source.Calm a

section
variable {cfg : Config} {decode : List UInt8 → Option TradeEvent}
  {stream : Nat → Option (List UInt8)} {size : Nat} {s s' : State} {a : Action}

theorem kept_step (hload : Loaded cfg.source.policy s.source.loop) (hcalm : Calm a)
    (h : Kept s.source) (hs : step cfg decode stream s a = some s') : Kept s'.source := by
  cases step_takes hs with
  | tick _ _ => exact h
  | @arrive seq _ _ _ hsrc _ =>
    exact Source.kept_step hload (show Source.Calm (.arrive seq) from hcalm) h hsrc
  | @other a _ _ hsrc _ => exact Source.kept_step hload (show Source.Calm a from hcalm) h hsrc

/-- **Settled in time.** Without a broken fetch, a stop or a restart, every delivery that arrived
longer ago than a flush interval and three flushes was handed to an ack, with its key in the table or
a payload that does not decode, or the write of its batch failed. -/
theorem settled_in_time {lake : Lake} (hl : lake.table.schema = Trades.schema) (hr : Roomy cfg size)
    (hstream : ∀ seq payload, stream seq = some payload → payload.length ≤ size) {as : List Action}
    (hcalm : ∀ a ∈ as, Calm a)
    (h : Machine.run (step cfg decode stream) (.start cfg lake) as = some s) :
    ∀ k < s.source.loop.deliveries,
      s.deliveredAt k + cfg.source.policy.flushInterval + 3 * cfg.flushTime < s.now →
      ∃ m, m.delivery = k ∧ (Ack.nats m ∈ s.source.loop.history.failed ∨
        m ∈ s.source.loop.history.invoked ∧
          (decode m.payload = none ∨
            ∃ e, decode m.payload = some e ∧ Stored s.source.loop.world e)) := by
  have hboth : Inv cfg decode stream size s ∧ Kept s.source := by
    refine Machine.run_inv_of (I := fun s => Inv cfg decode stream size s ∧ Kept s.source) (A := Calm)
      (fun s a s' ha hi hs => ?_) hcalm ⟨inv_start hl, trivial, nofun, nofun⟩ h
    exact ⟨inv_step hr hstream hi.1 hs, kept_step hi.1.loaded ha hi.2 hs⟩
  obtain ⟨hinv, hkept⟩ := hboth
  intro k hk hold
  obtain ⟨m, hm, rfl⟩ := hkept.kept k hk
  refine ⟨m, rfl, ?_⟩
  by_cases hheld : m ∈ s.source.held
  · have := hinv.held_le hheld
    omega
  · simp only [Source.State.held, Source.State.live, Batcher.State.held, Batcher.State.live,
      List.mem_append, not_or] at hm hheld
    have hout : m ∈ handles s.source.loop.history.failed ∨ m ∈ s.source.loop.history.invoked := by
      tauto
    rcases hout with hf | hi
    · obtain ⟨ack, hack, hmsg⟩ := List.mem_filterMap.1 hf
      cases ack with
      | nats m' => cases hmsg; exact .inl hack
      | counter id => cases hmsg
      | none => cases hmsg
    · exact .inr ⟨hi, hinv.source.safe.invoked m hi⟩

end

/-- One trade, from its delivery to its ack. -/
def settledTrade : List Action :=
  [.step (.fetch (.ok ())), .step (.arrive 0), .step .next, .step .send,
    .step (.loop (.recv 0 0 0)), .tick 5, .step (.loop (.due 5)), .tick 3,
    .step (.loop (.write .allOk)), .step (.loop (.ack 0 (.ok ()))), .tick 7]

theorem settled_in_time_trade : ∃ s,
    Machine.run (step quickFlushes decodeByte twoMessages) (.start quickFlushes .created)
      settledTrade = some s ∧ ∃ m : Message, m.delivery = 0 ∧
        (Ack.nats m ∈ s.source.loop.history.failed ∨ m ∈ s.source.loop.history.invoked ∧
          (decodeByte m.payload = none ∨
            ∃ e, decodeByte m.payload = some e ∧ Stored s.source.loop.world e)) := by
  have hx : (Machine.run (step quickFlushes decodeByte twoMessages) (.start quickFlushes .created)
      settledTrade).map (fun s => (s.source.loop.deliveries, s.deliveredAt 0, s.now)) =
        some (1, 0, 15) := by decide +kernel
  obtain ⟨s, hs, heq⟩ := Option.map_eq_some_iff.1 hx
  simp only [Prod.mk.injEq] at heq
  obtain ⟨hdel, hat, hnow⟩ := heq
  have hcalm : ∀ a ∈ settledTrade, Calm a := by
    intro a ha
    simp only [settledTrade, List.mem_cons, List.not_mem_nil, or_false] at ha
    rcases ha with rfl | rfl | rfl | rfl | rfl | rfl | rfl | rfl | rfl | rfl | rfl <;> trivial
  refine ⟨s, hs, settled_in_time rfl quickFlushes_roomy twoMessages_length hcalm hs 0 ?_ ?_⟩
  · rw [hdel]
    exact Nat.one_pos
  · rw [hat, hnow]
    decide

end Batcher.Redelivery
