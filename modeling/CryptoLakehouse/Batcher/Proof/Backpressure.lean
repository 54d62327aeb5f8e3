import CryptoLakehouse.Batcher.Proof.Headroom

/-!
# Backpressure does not deadlock

The pull loop waits in `tx.send` while the channel is full, and the batch loop, which alone takes from
the channel, waits for the catalog and for acks while it flushes. Its `patience` counts the steps it
has at most before it receives again, whether these succeed or fail.

* `Action.loops` — the batch loop's own steps, each of which is one fewer to go (`patience_step`).
* `send_goes_through` — the pull loop waits for a bounded number of them, and there is always one that
  the batch loop can take.
-/

namespace Batcher

open Trades Sink

/-- The steps of the batch loop's own, with whatever answers. -/
def Action.loops : Action → Bool
  | .recv _ _ _ => true
  | .due _ => true
  | .stop => true
  | .write _ => true
  | .ack _ _ => true
  | _ => false

/-- The steps before the next envelope is received at the latest, that one included. -/
def State.patience (s : State) : Nat :=
  match s.phase with
  | .waiting => if s.acc.acks = [] then 1 else s.acc.acks.length + 3
  | .flushing batch => batch.acks.length + 2
  | .acking _ _ pending _ => pending.length + 1
  | .stopped => 0

/-- The acks of a batch that is being acked are not all sent. -/
def State.Acks (s : State) : Prop :=
  ∀ batch written pending n, s.phase = .acking batch written pending n → pending ≠ []

section
variable {cfg : Config} {decode : List UInt8 → Option TradeEvent} {stream : Nat → List UInt8}
  {s s' : State} {a : Action} {batch : MicroBatch} {written : WriteStats} {pending : List Ack}
  {n : Nat} {t : FlushTrigger}

theorem patience_waiting (hp : s.phase = .waiting) (ha : s.acc.acks = []) : s.patience = 1 := by
  rw [State.patience, hp]
  exact if_pos ha

theorem patience_buffered (hp : s.phase = .waiting) (ha : s.acc.acks ≠ []) :
    s.patience = s.acc.acks.length + 3 := by
  rw [State.patience, hp]
  exact if_neg ha

theorem patience_flushing (hp : s.phase = .flushing batch) :
    s.patience = batch.acks.length + 2 := by rw [State.patience, hp]

theorem patience_acking (hp : s.phase = .acking batch written pending n) :
    s.patience = pending.length + 1 := by rw [State.patience, hp]

/-- The end of a flush leaves the loop in `select!`, with nothing buffered, or stopped. -/
theorem patience_next (hp : s.phase = .next t) (ha : s.acc.acks = []) : s.patience ≤ 1 := by
  cases t with
  | shutdown => rw [State.patience, hp]; exact Nat.zero_le _
  | _ => exact (patience_waiting hp ha).le

theorem patience_flush (hnil : s.acc.rows = [] ↔ s.acc.acks = []) (hne : s.acc.acks ≠ []) :
    (s.flush t).patience = s.acc.acks.length + 2 := by
  obtain ⟨hp, -⟩ := flush_taken (mt hnil.1 hne) t
  exact patience_flushing hp

theorem patience_ofAcking (ha : s.acc.acks = []) :
    (s.acking batch written pending n).patience ≤ pending.length + 1 := by
  by_cases hnil : pending.isEmpty = true
  · have hp : (s.acking batch written pending n).phase = .next batch.trigger := by
      rw [State.acking, if_pos hnil]
    have hacc : (s.acking batch written pending n).acc.acks = [] := by rw [acking_acc, ha]
    exact (patience_next hp hacc).trans (Nat.le_add_left _ _)
  · have hp : (s.acking batch written pending n).phase = .acking batch written pending n := by
      rw [State.acking, if_neg hnil]
    exact (patience_acking hp).le

theorem patience_written (ha : s.acc.acks = []) {ops : WriteOps} :
    (s.written batch ops).patience ≤ batch.acks.length + 1 := by
  unfold State.written
  split
  · exact patience_ofAcking ha
  · rename_i world _
    have hnext : State.patience { s with
        world := world
        phase := .next batch.trigger
        stats := { s.stats with failedCommits := s.stats.failedCommits + 1 }
        history := { s.history with failed := s.history.failed ++ batch.acks } } ≤ 1 :=
      patience_next rfl ha
    exact hnext.trans (Nat.le_add_left _ _)

/-- **A step** of the loop's own, after which the channel is as full as it may be. -/
theorem patience_step {capacity : Nat} (h : Loaded cfg.policy s) (hcap : s.channel.length ≤ capacity)
    (ha : a.loops = true) (hs : step cfg decode stream s a = some s') (hp' : s'.phase ≠ .stopped)
    (hfull : capacity ≤ s'.channel.length) : s'.patience + 1 ≤ s.patience := by
  obtain ⟨es, hes⟩ := h.holds
  cases a with
  | recv seen now flushNow =>
    simp only [step] at hs
    split at hs
    · rename_i envelope channel hp hc
      -- One envelope fewer is in the channel.
      have hch : s'.channel = channel := by
        cases hs
        split
        · exact flush_channel _
        · rfl
      rw [hc, List.length_cons] at hcap
      rw [hch] at hfull
      omega
    · cases hs
  | due now =>
    simp only [step] at hs
    split at hs
    · rename_i hp
      split at hs
      · rename_i hdue
        cases hs
        have hne := acks_of_timeToFlush hes hdue
        rw [patience_flush hes.rows_nil hne, patience_buffered hp hne]
      · cases hs
    · cases hs
  | stop =>
    simp only [step] at hs
    split at hs
    · rename_i hp
      cases hs
      by_cases hne : s.acc.acks = []
      · rw [flush_nothing (hes.rows_nil.2 hne)] at hp'
        exact absurd rfl hp'
      · rw [patience_flush hes.rows_nil hne, patience_buffered hp hne]
    · cases hs
  | write ops =>
    simp only [step] at hs
    split at hs
    · rename_i batch hp
      cases hs
      rw [patience_flushing hp]
      exact Nat.succ_le_succ (patience_written (h.busy (by simp [hp])))
    · cases hs
  | ack i reply =>
    simp only [step] at hs
    split at hs
    · rename_i batch written pending n hp
      split at hs
      · obtain ⟨ack, hi, rfl⟩ := Option.map_eq_some_iff.1 hs
        obtain ⟨hlt, -⟩ := List.getElem?_eq_some_iff.1 hi
        have hacc : (s.invoke reply ack).acc.acks = [] := by
          rw [(upstream_invoke reply ack).acc]
          exact h.busy (by simp [hp])
        rw [patience_acking hp]
        refine Nat.succ_le_succ ((patience_ofAcking hacc).trans ?_)
        rw [List.length_eraseIdx_of_lt hlt]
        omega
      · cases hs
    · cases hs
  | deliver seq reply => cases ha
  | crash => cases ha
  | foreign files => cases ha

/-- What is not a step of the loop's own leaves it where it is. -/
theorem patience_foreign (ha : a.loops = false) (hd : ∀ seq reply, a ≠ .deliver seq reply)
    (hc : a ≠ .crash) (hs : step cfg decode stream s a = some s') : s'.patience = s.patience := by
  cases a with
  | foreign files =>
    simp only [step] at hs
    split at hs
    · cases hs
      rfl
    · cases hs
  | deliver seq reply => exact absurd rfl (hd seq reply)
  | crash => exact absurd rfl hc
  | _ => cases ha

/-- A loop that has returned does not go on. -/
theorem stopped_step (hp : s.phase = .stopped) (hd : ∀ seq reply, a ≠ .deliver seq reply)
    (hc : a ≠ .crash) (hs : step cfg decode stream s a = some s') : s'.phase = .stopped := by
  cases step_takes hs with
  | deliver _ => exact absurd rfl (hd _ _)
  | recv hw _ => cases hp.symm.trans hw
  | recvFull hw _ _ => cases hp.symm.trans hw
  | flush hw _ => cases hp.symm.trans hw
  | write hb => cases hp.symm.trans hb
  | ack hb _ _ => cases hp.symm.trans hb
  | crash => exact absurd rfl hc
  | foreign _ => exact hp

/-- The acks that are left are at least one. -/
theorem acks_ofAcking : (s.acking batch written pending n).Acks := by
  intro b w p m hb
  unfold State.acking at hb
  split at hb
  · exact absurd hb next_ne_acking
  · rename_i hne
    cases hb
    simpa using hne

theorem acks_flush : (s.flush t).Acks := by
  intro b w p m hb
  unfold State.flush at hb
  dsimp only at hb
  split at hb
  · exact absurd hb next_ne_acking
  · cases hb

theorem acks_step (h : s.Acks) (hs : step cfg decode stream s a = some s') : s'.Acks := by
  cases step_takes hs with
  | deliver _ =>
    unfold State.Acks
    rw [(upstream_deliver _ _).phase]
    exact h
  | recv _ _ => exact h
  | recvFull _ _ t => exact acks_flush
  | flush _ t => exact acks_flush
  | write _ =>
    unfold State.written
    split
    · exact acks_ofAcking
    · exact fun _ _ _ _ hb => absurd hb next_ne_acking
  | ack _ _ _ => exact acks_ofAcking
  | crash => exact fun _ _ _ _ hb => nomatch hb
  | foreign _ => exact h

/-- The loop has a step of its own to take while the channel is not empty. -/
theorem loops_enabled (cfg : Config) (decode : List UInt8 → Option TradeEvent)
    (stream : Nat → List UInt8) (h : s.Acks) (hp : s.phase ≠ .stopped) (hc : s.channel ≠ []) :
    ∃ a : Action, a.loops = true ∧ ((∀ seq reply, a ≠ .deliver seq reply) ∧ a ≠ .crash) ∧
      (step cfg decode stream s a).isSome := by
  cases hph : s.phase with
  | waiting =>
    obtain ⟨envelope, channel, hch⟩ := List.exists_cons_of_ne_nil hc
    refine ⟨.recv 0 0 0, rfl, by simp, ?_⟩
    simp only [step, hph, hch]
    rfl
  | flushing batch =>
    refine ⟨.write .allOk, rfl, by simp, ?_⟩
    simp only [step, hph]
    rfl
  | acking batch written pending n =>
    obtain ⟨ack, pending, rfl⟩ := List.exists_cons_of_ne_nil (h _ _ _ _ hph)
    refine ⟨.ack 0 (.ok ()), rfl, by simp, ?_⟩
    simp only [step, hph]
    rfl
  | stopped => exact absurd hph hp

theorem patience_pos (hp : s.phase ≠ .stopped) : 0 < s.patience := by
  unfold State.patience
  cases hph : s.phase with
  | waiting =>
    dsimp only
    split <;> omega
  | flushing batch => exact Nat.succ_pos _
  | acking batch written pending n => exact Nat.succ_pos _
  | stopped => exact absurd hph hp

/-- How long it takes at most. -/
theorem Loaded.patience_le {policy : BatchConfig} (h : Loaded policy s) :
    s.patience ≤ max 1 policy.maxRecords + s.duplicates + 2 := by
  obtain ⟨es, hes⟩ := h.holds
  have hdup := hes.duplicates
  have hbelow := h.below
  unfold State.patience State.duplicates
  cases hp : s.phase with
  | waiting =>
    dsimp only
    split <;> omega
  | flushing batch =>
    have := h.flushing batch hp
    dsimp only
    omega
  | acking batch written pending n =>
    have := h.acking batch written pending n hp
    dsimp only
    omega
  | stopped => exact Nat.zero_le _

end

end Batcher

namespace Batcher.Source

open Trades Sink

def Action.loops : Action → Bool
  | .loop a => a.loops
  | _ => false

/-- The channel is full, and the loop that takes from it has not returned. -/
def State.Full (cfg : Config) (s : State) : Prop :=
  s.loop.phase ≠ .stopped ∧ cfg.capacity ≤ s.loop.channel.length

/-- The pull loop is in `send`. -/
def Puller.sends : Puller → Bool
  | sending _ _ => true
  | _ => false

section
variable {cfg : Config} {decode : List UInt8 → Option TradeEvent}
  {stream : Nat → Option (List UInt8)} {s s' : State} {a : Action}

theorem sends_iff {p : Puller} : p.sends = true ↔ ∃ d envelope, p = .sending d envelope := by
  cases p <;> simp [Puller.sends]

/-- `send` goes through unless the channel is full. -/
theorem full_of_stuck (h : s.puller.sends = true) (hs : step cfg decode stream s .send = none) :
    s.Full cfg := by
  obtain ⟨d, envelope, hp⟩ := sends_iff.1 h
  simp only [step, State.send, hp] at hs
  split at hs
  · cases hs
  · rename_i hph
    split at hs
    · cases hs
    · exact ⟨hph, by omega⟩

@[simp] theorem setFetch_sends {p : Puller} (d : Draining) : (p.setFetch d).sends = p.sends := by
  cases p <;> rfl

/-- The pull loop stays in `send` until that goes through. -/
theorem sends_step (h : s.puller.sends = true) (hsend : a ≠ .send) (hc : a ≠ .crash)
    (hs : step cfg decode stream s a = some s') : s'.puller.sends = true := by
  cases step_takes hs with
  | @pull _ p hp =>
    obtain ⟨d, envelope, hsd⟩ := sends_iff.1 h
    rw [hsd] at hp
    cases hp with
    | fail _ why => rfl
    | close _ => rfl
  | arrive _ _ _ _ => exact (setFetch_sends _).trans h
  | ackBad hp =>
    rw [hp] at h
    cases h
  | gone _ => exact absurd rfl hsend
  | send _ _ => exact absurd rfl hsend
  | loop _ _ _ => exact h
  | crash => exact absurd rfl hc

/-- **A step** after which the channel is full: it was full before, and the loop's own steps are fewer. -/
theorem full_step (hload : Loaded cfg.policy s.loop) (hlim : Limited cfg s) (hsend : a ≠ .send)
    (hc : a ≠ .crash) (hs : step cfg decode stream s a = some s') (hfull : s'.Full cfg) :
    s.Full cfg ∧ s'.loop.patience + (if a.loops then 1 else 0) ≤ s.loop.patience := by
  by_cases hloop : ∃ b, a = .loop b
  · obtain ⟨b, rfl⟩ := hloop
    obtain ⟨hd, hcr, loop, hl, rfl⟩ := step_loop_cases hs
    have hk := keepsHandles_step hl hd
    refine ⟨⟨fun hp => hfull.1 (stopped_step hp hd hcr hl), hfull.2.trans hk.channel⟩, ?_⟩
    cases hb : b.loops with
    | true =>
      have := patience_step hload hlim.channel hb hl hfull.1 hfull.2
      simpa [Action.loops, hb] using this
    | false =>
      have := patience_foreign hb hd hcr hl
      simp [Action.loops, hb, this]
  · have hown : a.loops = false := by
      cases a with
      | loop b => exact absurd ⟨b, rfl⟩ hloop
      | _ => rfl
    rw [hown]
    cases step_takes hs with
    | pull _ => exact ⟨hfull, le_rfl⟩
    | arrive _ _ _ _ => exact ⟨hfull, le_rfl⟩
    | ackBad hp => exact ⟨hfull, le_rfl⟩
    | gone _ => exact absurd rfl hsend
    | send _ _ => exact absurd rfl hsend
    | loop _ _ _ => exact absurd ⟨_, rfl⟩ hloop
    | crash => exact absurd rfl hc

/-- While `send` waits, each step of the batch loop's own is one fewer to go. -/
theorem full_run {as : List Action} (hload : Loaded cfg.policy s.loop) (hlim : Limited cfg s)
    (ha : ∀ a ∈ as, a ≠ .send ∧ a ≠ .crash)
    (hr : Machine.run (step cfg decode stream) s as = some s') (hfull : s'.Full cfg) :
    s.Full cfg ∧ s'.loop.patience + as.countP Action.loops ≤ s.loop.patience := by
  induction as generalizing s with
  | nil =>
    cases hr
    exact ⟨hfull, le_rfl⟩
  | cons a as ih =>
    obtain ⟨m, hm, hr⟩ := Machine.run_cons.1 hr
    obtain ⟨hsend, hc⟩ := ha a List.mem_cons_self
    obtain ⟨hmid, hcount⟩ := ih (loaded_source hload hm) (limited_step hlim hm)
      (fun b hb => ha b (List.mem_cons_of_mem _ hb)) hr
    obtain ⟨hfirst, hone⟩ := full_step hload hlim hsend hc hm hmid
    refine ⟨hfirst, ?_⟩
    rw [List.countP_cons]
    omega

theorem acks_source (h : s.loop.Acks) (hs : step cfg decode stream s a = some s') :
    s'.loop.Acks := by
  cases step_takes hs with
  | pull _ => exact h
  | arrive _ _ _ _ => exact h
  | ackBad _ => exact h
  | gone _ => exact h
  | send _ _ => exact h
  | loop hl _ _ => exact acks_step h hl
  | crash => exact fun _ _ _ _ hb => nomatch hb

/-- **Backpressure does not deadlock.** From every state of every run in which the pull loop is in
`send`, and whatever the catalog, the store and the consumer answer: while `send` has not gone
through, the batch loop has taken fewer than `max_records` (or one), its duplicates and two more
steps of its own, and has another one that it can take. -/
theorem send_goes_through {lake : Lake} {as bs : List Action}
    (h : Machine.run (step cfg decode stream) (.start cfg lake) as = some s)
    (hsend : s.puller.sends = true) (hb : ∀ b ∈ bs, b ≠ .send ∧ b ≠ .crash)
    (hr : Machine.run (step cfg decode stream) s bs = some s')
    (hstuck : step cfg decode stream s' .send = none) :
    bs.countP Action.loops < max 1 cfg.policy.maxRecords + s.loop.duplicates + 2 ∧
    ∃ b : Action, b.loops = true ∧ (step cfg decode stream s' b).isSome := by
  have hsend' : s'.puller.sends = true := Machine.run_inv_of (I := fun s => s.puller.sends = true)
    (fun _ _ _ ha hi hs => sends_step hi ha.1 ha.2 hs) hb hsend hr
  have hfull : s'.Full cfg := full_of_stuck hsend' hstuck
  have hload := loaded_run h
  have hlim := limited_run h
  have hacks : s'.loop.Acks := Machine.run_inv (I := fun s => s.loop.Acks)
    (fun _ _ _ h hs => acks_source h hs) (fun _ _ _ _ hb => nomatch hb)
    (Machine.run_append.2 ⟨s, h, hr⟩)
  have hne : s'.loop.channel ≠ [] := fun hnil => by
    have := hfull.2
    rw [hnil, Config.capacity, List.length_nil] at this
    omega
  obtain ⟨b, hloops, ⟨hd, hc⟩, hsome⟩ :=
    loops_enabled cfg.toConfig decode (fun _ => []) hacks hfull.1 hne
  obtain ⟨-, hcount⟩ := full_run hload hlim hb hr hfull
  refine ⟨?_, .loop b, hloops, ?_⟩
  · have hle : s.loop.patience ≤ max 1 cfg.policy.maxRecords + s.loop.duplicates + 2 :=
      hload.patience_le
    have hpos := patience_pos hfull.1
    omega
  · obtain ⟨loop, hl⟩ := Option.isSome_iff_exists.1 hsome
    rw [step_loop hd hc, hl]
    rfl

end

/-- One delivery is being written, two fill the channel, and the fourth waits in `send`. -/
def overflowing : List Action :=
  [.fetch (.ok ()), .arrive 0, .arrive 0, .next, .send, .loop (.recv 0 0 0), .loop (.due 5), .next,
    .send, .close, .next, .fetch (.ok ()), .arrive 0, .arrive 0, .next, .send, .next]

/-- The flush ends, and `send` still waits. -/
theorem send_goes_through_overflowing : ∃ s s',
    Machine.run (step smallFetches decodeByte twoMessages) (.start smallFetches .created)
      overflowing = some s ∧
    Machine.run (step smallFetches decodeByte twoMessages) s
      [.loop (.write .allOk), .loop (.ack 0 (.ok ()))] = some s' ∧
    2 < max 1 smallFetches.policy.maxRecords + s.loop.duplicates + 2 ∧
    ∃ b : Action, b.loops = true ∧ (step smallFetches decodeByte twoMessages s' b).isSome := by
  have hx : (Machine.run (step smallFetches decodeByte twoMessages) (.start smallFetches .created)
      overflowing).map (fun s => s.puller.sends) = some true := by decide +kernel
  obtain ⟨s, hs, hsend⟩ := Option.map_eq_some_iff.1 hx
  have hy : (Machine.run (step smallFetches decodeByte twoMessages) (.start smallFetches .created)
      (overflowing ++ [.loop (.write .allOk), .loop (.ack 0 (.ok ()))])).map
        (fun s => (step smallFetches decodeByte twoMessages s .send).isNone) = some true := by
    decide +kernel
  obtain ⟨s', hs', hstuck⟩ := Option.map_eq_some_iff.1 hy
  obtain ⟨m, hm, hr⟩ := Machine.run_append.1 hs'
  cases hs.symm.trans hm
  have hb : ∀ b ∈ [Action.loop (.write .allOk), Action.loop (.ack 0 (.ok ()))],
      b ≠ .send ∧ b ≠ .crash := by simp
  obtain ⟨hcount, hgo⟩ := send_goes_through hs hsend hb hr (Option.isNone_iff_eq_none.1 hstuck)
  exact ⟨s, s', hs, hr, hcount, hgo⟩

end Batcher.Source
