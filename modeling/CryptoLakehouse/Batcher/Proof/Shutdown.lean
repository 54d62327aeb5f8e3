import CryptoLakehouse.Batcher.Proof.Restart

/-!
# A stop drains the batch

On SIGTERM `run` flushes what is buffered and returns. Meanwhile the pull loop goes on, and other
writers commit.

* `Stops` — where the last flush is, and what it has yet to ack.
* `drains` — each step of the loop's own is one fewer to go, in whatever order the acks are sent.
* `stop_drains` — so it is from every state of every run in which the loop waits.
-/

namespace Batcher

open Arrow Trades Sink

/-- A session with nothing left behind knows only the table. -/
theorem idle_of_free {schema : Schema} {w : World} (h : Opened schema w)
    (hfree : "incoming" ∉ w.sink.ctx.names) : w.sink.ctx = .idle := by
  rcases h.session with hs | ⟨batch, hs⟩
  · exact hs
  · exact absurd (by simp [hs, Session.names, Session.busy]) hfree

/-- The steps that the last flush has to go. -/
def State.remaining (s : State) : Nat :=
  match s.phase with
  | .flushing batch => 1 + batch.acks.length
  | .acking _ _ pending _ => pending.length
  | _ => 0

/-- The message of the ack is acked. -/
def State.Sent (s : State) (ack : Ack) : Prop := ∀ msg, ack = .nats msg → msg.seq ∈ s.acked

/-- The last flush, with these acks. -/
inductive Stops (acks : List Ack) (s : State) : Prop
  | flushing {batch : MicroBatch} (hp : s.phase = .flushing batch) (ht : batch.trigger = .shutdown)
      (ha : batch.acks = acks) (ho : Opened Trades.schema s.world) (hs : s.world.sink.ctx = .idle)
  | acking {batch : MicroBatch} {written : WriteStats} {pending : List Ack} {n : Nat}
      (hp : s.phase = .acking batch written pending n) (ht : batch.trigger = .shutdown)
      (hne : pending ≠ []) (ha : ∀ ack ∈ acks, ack ∈ pending ∨ s.Sent ack)
  | stopped (hp : s.phase = .stopped) (ha : ∀ ack ∈ acks, s.Sent ack)

/-- The loop's own steps are answered, and nobody kills the process. -/
def Action.Lasting : Action → Prop
  | .write ops => ops.AllOk
  | .ack _ reply => reply = .ok ()
  | .crash => False
  | _ => True

/-- The steps of a flush. -/
def Action.own : Action → Bool
  | .write _ => true
  | .ack _ _ => true
  | _ => false

section
variable {cfg : Config} {decode : List UInt8 → Option TradeEvent} {stream : Nat → List UInt8}
  {s s' : State} {a : Action} {acks pending : List Ack} {batch : MicroBatch} {written : WriteStats}
  {n : Nat}

theorem remaining_flushing (hp : s.phase = .flushing batch) :
    s.remaining = 1 + batch.acks.length := by rw [State.remaining, hp]

theorem remaining_acking (hp : s.phase = .acking batch written pending n) :
    s.remaining = pending.length := by rw [State.remaining, hp]

theorem Stops.phase_ne (h : Stops acks s) : s.phase ≠ .waiting := by
  cases h with
  | flushing hp _ _ _ _ => simp [hp]
  | acking hp _ _ _ => simp [hp]
  | stopped hp _ => simp [hp]

/-- What does not touch the flush. -/
theorem Stops.frame (h : Stops acks s) (hp : s'.phase = s.phase) (ha : s.acked ⊆ s'.acked)
    (ho : Opened Trades.schema s.world → Opened Trades.schema s'.world)
    (hs : s'.world.sink.ctx = s.world.sink.ctx) :
    Stops acks s' ∧ s'.remaining = s.remaining := by
  have hsent : ∀ ack, s.Sent ack → s'.Sent ack := fun ack h msg hm => ha (h msg hm)
  refine ⟨?_, by rw [State.remaining, State.remaining, hp]⟩
  cases h with
  | flushing hph ht hacks hopen hctx =>
    exact .flushing (hp.trans hph) ht hacks (ho hopen) (hs.trans hctx)
  | acking hph ht hne hacks =>
    exact .acking (hp.trans hph) ht hne fun ack hm => (hacks ack hm).imp_right (hsent ack)
  | stopped hph hacks => exact .stopped (hp.trans hph) fun ack hm => hsent ack (hacks ack hm)

/-- The acks that are left are sent one by one. -/
theorem stops_acking (ht : batch.trigger = .shutdown)
    (ha : ∀ ack ∈ acks, ack ∈ pending ∨ s.Sent ack) :
    Stops acks (s.acking batch written pending n) ∧
      (s.acking batch written pending n).remaining = pending.length := by
  cases pending with
  | nil =>
    have hx : s.acking batch written [] n =
        { s with phase := .stopped, stats := s.stats.flushed written n } := by
      unfold State.acking
      rw [ht]
      rfl
    rw [hx]
    refine ⟨.stopped rfl fun ack hm => ?_, rfl⟩
    exact (ha ack hm).resolve_left List.not_mem_nil
  | cons ack pending => exact ⟨.acking rfl ht (List.cons_ne_nil _ _) ha, rfl⟩

/-- The write of the last batch succeeds. -/
theorem stops_written {ops : WriteOps} (hops : ops.AllOk) (ht : batch.trigger = .shutdown)
    (ho : Opened Trades.schema s.world) (hs : s.world.sink.ctx = .idle) :
    Stops batch.acks (s.written batch ops) ∧ (s.written batch ops).remaining = batch.acks.length := by
  have hok : Fallible.succeeded (writeBatch ops batch.rows s.world) = true := writeBatch_ok ho hs hops
  unfold State.written
  cases hw : writeBatch ops batch.rows s.world with
  | error e w =>
    rw [hw] at hok
    cases hok
  | ok written w => exact stops_acking ht fun ack hm => .inl hm

/-- An ack is sent. -/
theorem stops_ack {i : Nat} {ack : Ack} (ht : batch.trigger = .shutdown)
    (ha : ∀ ack ∈ acks, ack ∈ pending ∨ s.Sent ack) (hi : pending[i]? = some ack) (n' : Nat) :
    Stops acks ((s.invoke (.ok ()) ack).acking batch written (pending.eraseIdx i) n') ∧
      ((s.invoke (.ok ()) ack).acking batch written (pending.eraseIdx i) n').remaining + 1 =
        pending.length := by
  obtain ⟨hlt, hget⟩ := List.getElem?_eq_some_iff.1 hi
  have hmono : s.acked ⊆ (s.invoke (.ok ()) ack).acked := by
    cases ack with
    | nats msg =>
      rw [invoke_ok]
      exact List.subset_append_left _ _
    | counter id => exact List.Subset.refl _
    | none => exact List.Subset.refl _
  have hleft : ∀ b ∈ acks, b ∈ pending.eraseIdx i ∨ (s.invoke (.ok ()) ack).Sent b := by
    intro b hb
    rcases ha b hb with hp | hsent
    · by_cases he : b = ack
      · refine .inr fun msg hm => ?_
        rw [← he, hm, invoke_ok]
        exact List.mem_append_right _ (List.mem_singleton_self _)
      · obtain ⟨j, hj⟩ := List.getElem?_of_mem hp
        refine .inl (List.mem_eraseIdx_iff_getElem?.2 ⟨j, fun hji => he ?_, hj⟩)
        rw [hji, hi] at hj
        exact (Option.some.inj hj).symm
    · exact .inr fun msg hm => hmono (hsent msg hm)
  obtain ⟨hstops, hrem⟩ := stops_acking ht hleft
  refine ⟨hstops, ?_⟩
  rw [hrem, List.length_eraseIdx_of_lt hlt]
  omega

/-- **A step** after the stop. -/
theorem stops_step (h : Stops acks s) (ha : a.Lasting) (hd : ∀ seq reply, a ≠ .deliver seq reply)
    (hs : step cfg decode stream s a = some s') : Stops acks s' ∧ s'.acc = s.acc ∧
      s'.remaining + (if a.own then 1 else 0) = s.remaining := by
  cases step_takes hs with
  | deliver _ => exact absurd rfl (hd _ _)
  | recv hp _ => exact absurd hp h.phase_ne
  | recvFull hp _ _ => exact absurd hp h.phase_ne
  | flush hp _ => exact absurd hp h.phase_ne
  | @write ops batch hb =>
    cases h with
    | @flushing batch' hp ht hacks ho hidle =>
      rw [hb] at hp
      cases hp
      subst hacks
      obtain ⟨hstops, hrem⟩ := stops_written ha ht ho hidle
      refine ⟨hstops, written_acc, ?_⟩
      rw [hrem, remaining_flushing hb]
      exact Nat.add_comm _ _
    | acking hp _ _ _ =>
      rw [hb] at hp
      cases hp
    | stopped hp _ =>
      rw [hb] at hp
      cases hp
  | @ack i reply batch written pending n ack hp hi n' =>
    cases (ha : reply = .ok ())
    cases h with
    | @acking batch' written' pending' m hp' ht hne hacks =>
      rw [hp] at hp'
      cases hp'
      obtain ⟨hstops, hrem⟩ := stops_ack ht hacks hi n'
      refine ⟨hstops, ?_, ?_⟩
      · rw [acking_acc]
        cases ack <;> rfl
      · rw [remaining_acking hp]
        exact hrem
    | flushing hp' _ _ _ _ =>
      rw [hp] at hp'
      cases hp'
    | stopped hp' _ =>
      rw [hp] at hp'
      cases hp'
  | crash => exact ha.elim
  | @foreign files hf =>
    have hframe : Stops acks { s with world := { s.world with lake := s.world.lake.append files } } ∧
        _ = s.remaining := h.frame rfl (List.Subset.refl _) (fun ho => ho.foreign hf) rfl
    exact ⟨hframe.1, rfl, hframe.2⟩

/-- The stop. -/
theorem stops_flush (ho : Opened Trades.schema s.world) (hidle : s.world.sink.ctx = .idle)
    (hnil : s.acc.rows = [] ↔ s.acc.acks = []) : Stops s.acc.acks (s.flush .shutdown) ∧
      (s.flush .shutdown).remaining = if s.acc.acks = [] then 0 else 1 + s.acc.acks.length := by
  by_cases hacks : s.acc.acks = []
  · rw [flush_nothing (hnil.2 hacks), if_pos hacks, hacks]
    exact ⟨.stopped rfl fun _ hm => absurd hm List.not_mem_nil, rfl⟩
  · obtain ⟨hp, hw⟩ := flush_taken (fun h => hacks (hnil.1 h)) .shutdown
    rw [remaining_flushing hp, if_neg hacks]
    exact ⟨.flushing hp rfl rfl (hw ▸ ho) (by rw [hw, hidle]), rfl⟩

/-- The loop is over when nothing is left to do. -/
theorem Stops.remaining_iff (h : Stops acks s) : s.remaining = 0 ↔ s.phase = .stopped := by
  cases h with
  | flushing hp _ _ _ _ =>
    rw [remaining_flushing hp, hp]
    simp
  | acking hp _ hne _ =>
    rw [remaining_acking hp, hp]
    simp [hne]
  | stopped hp _ => simp [State.remaining, hp]

/-- And it can go on while something is. -/
theorem Stops.can_go (h : Stops acks s) (cfg : Config) (decode : List UInt8 → Option TradeEvent)
    (stream : Nat → List UInt8) (hne : s.remaining ≠ 0) : ∃ b : Action, b.Lasting ∧ b.own = true ∧
      ((∀ seq reply, b ≠ .deliver seq reply) ∧ b ≠ .crash) ∧
      (step cfg decode stream s b).isSome := by
  cases h with
  | flushing hp _ _ _ _ =>
    refine ⟨.write .allOk, WriteOps.allOk_allOk, rfl, by simp, ?_⟩
    simp only [step, hp]
    rfl
  | @acking batch written pending n hp _ hnil _ =>
    refine ⟨.ack 0 (.ok ()), rfl, rfl, by simp, ?_⟩
    obtain ⟨ack, pending, rfl⟩ := List.exists_cons_of_ne_nil hnil
    simp only [step, hp]
    rfl
  | stopped hp _ => exact absurd (by rw [State.remaining, hp]) hne

end

end Batcher

namespace Batcher.Source

open Trades Sink

/-- The batch loop's own steps are answered, and nobody kills the process; the pull loop may fail. -/
def Action.Lasting : Action → Prop
  | .loop a => a.Lasting
  | .crash => False
  | _ => True

def Action.own : Action → Bool
  | .loop a => a.own
  | _ => false

section
variable {cfg : Config} {decode : List UInt8 → Option TradeEvent}
  {stream : Nat → Option (List UInt8)} {s s' : State} {a : Action} {acks : List Ack}

theorem step_stop (hs : step cfg decode stream s (.loop .stop) = some s') :
    s' = { s with loop := s.loop.flush .shutdown } := by
  obtain ⟨loop, hl, rfl⟩ := Option.map_eq_some_iff.1 hs
  simp only [Batcher.step] at hl
  split at hl
  · cases hl
    rfl
  · cases hl

/-- The pull loop's steps leave the batch alone. -/
theorem pull_frame (ha : ∀ b, a ≠ .loop b) (hc : a ≠ .crash)
    (hs : step cfg decode stream s a = some s') : s'.loop.phase = s.loop.phase ∧
      s.loop.acked ⊆ s'.loop.acked ∧ s'.loop.world = s.loop.world ∧ s'.loop.acc = s.loop.acc := by
  cases step_takes hs with
  | pull _ => exact ⟨rfl, List.Subset.refl _, rfl, rfl⟩
  | arrive _ _ _ _ => exact ⟨rfl, List.Subset.refl _, rfl, rfl⟩
  | @ackBad reply d msg _ =>
    refine ⟨rfl, ?_, rfl, rfl⟩
    show s.loop.acked ⊆ if reply = .ok () then s.loop.acked ++ [msg.seq] else s.loop.acked
    split
    · exact List.subset_append_left _ _
    · exact List.Subset.refl _
  | gone _ => exact ⟨rfl, List.Subset.refl _, rfl, rfl⟩
  | send _ _ => exact ⟨rfl, List.Subset.refl _, rfl, rfl⟩
  | loop _ _ _ => exact absurd rfl (ha _)
  | crash => exact absurd rfl hc

theorem lasting_step (h : Stops acks s.loop) (ha : a.Lasting)
    (hs : step cfg decode stream s a = some s') : Stops acks s'.loop ∧ s'.loop.acc = s.loop.acc ∧
      s'.loop.remaining + (if a.own then 1 else 0) = s.loop.remaining := by
  by_cases hloop : ∃ b, a = .loop b
  · obtain ⟨b, rfl⟩ := hloop
    obtain ⟨hd, -, loop, hl, rfl⟩ := step_loop_cases hs
    exact stops_step h ha hd hl
  · have hown : a.own = false := by
      cases a with
      | loop b => exact absurd ⟨b, rfl⟩ hloop
      | _ => rfl
    have hc : a ≠ .crash := fun he => by
      rw [he] at ha
      exact ha
    obtain ⟨hp, hacked, hw, hacc⟩ := pull_frame (fun b he => hloop ⟨b, he⟩) hc hs
    obtain ⟨hstops, hrem⟩ := h.frame hp hacked (fun ho => hw ▸ ho) (by rw [hw])
    rw [hown]
    exact ⟨hstops, hacc, hrem⟩

/-- **The countdown**: each step of the flush is one fewer to go. -/
theorem drains {as : List Action} (h : Stops acks s.loop) (ha : ∀ a ∈ as, a.Lasting)
    (hr : Machine.run (step cfg decode stream) s as = some s') : Stops acks s'.loop ∧
      s'.loop.acc = s.loop.acc ∧ s'.loop.remaining + as.countP Action.own = s.loop.remaining := by
  induction as generalizing s with
  | nil =>
    cases hr
    exact ⟨h, rfl, rfl⟩
  | cons a as ih =>
    obtain ⟨m, hm, hr⟩ := Machine.run_cons.1 hr
    obtain ⟨h₁, hacc₁, hrem₁⟩ := lasting_step h (ha a List.mem_cons_self) hm
    obtain ⟨h₂, hacc₂, hrem₂⟩ := ih h₁ (fun b hb => ha b (List.mem_cons_of_mem _ hb)) hr
    refine ⟨h₂, hacc₂.trans hacc₁, ?_⟩
    rw [List.countP_cons]
    omega

/-- **A stop drains the batch.** From every state of every run in which the session is not wedged, and
whatever the pull loop and other writers do meanwhile: after the stop the loop has one write and an
ack for each buffered delivery to go (or nothing), never gets stuck, and when it has returned,
nothing is buffered and every delivery that was is acked, with its key in the table. -/
theorem stop_drains {lake : Lake} (hl : lake.table.schema = Trades.schema) {as bs : List Action}
    (h : Machine.run (step cfg decode stream) (.start cfg lake) as = some s)
    (hfree : "incoming" ∉ s.loop.world.sink.ctx.names) (hb : ∀ b ∈ bs, b.Lasting)
    (hr : Machine.run (step cfg decode stream) s (.loop .stop :: bs) = some s') :
    (s'.loop.remaining + bs.countP Action.own =
      if s.loop.acc.acks = [] then 0 else 1 + s.loop.acc.acks.length) ∧
    (s'.loop.remaining = 0 ↔ s'.loop.phase = .stopped) ∧
    (s'.loop.remaining ≠ 0 → ∃ b : Action, b.Lasting ∧ b.own = true ∧
      (step cfg decode stream s' b).isSome) ∧
    (s'.loop.phase = .stopped → s'.loop.acc.acks = [] ∧
      ∀ msg, Ack.nats msg ∈ s.loop.acc.acks → msg.seq ∈ s'.loop.acked ∧
        ∀ r, row decode stream msg.seq = some r → ∃ r' ∈ s'.loop.world.lake.rows, r'.key = r.key) := by
  have hinv := inv_run hl h
  obtain ⟨es, hes⟩ := (loaded_run h).holds
  have hidle := idle_of_free hinv.safe.opened hfree
  obtain ⟨hstops, hrem⟩ := stops_flush hinv.safe.opened hidle hes.rows_nil
  obtain ⟨m, hm, hrun⟩ := Machine.run_cons.1 hr
  cases step_stop hm
  obtain ⟨hstops', hacc, hcount⟩ := drains hstops hb hrun
  have hreach := Machine.run_append.2 ⟨s, h, hr⟩
  have hgo := hstops'.can_go cfg.toConfig decode fun _ => []
  refine ⟨hcount.trans hrem, hstops'.remaining_iff, fun hne => ?_,
    fun hstopped => ⟨?_, fun msg hmsg => ?_⟩⟩
  · obtain ⟨b, hlast, hown, ⟨hd, hc⟩, hsome⟩ := hgo hne
    obtain ⟨loop, hloop⟩ := Option.isSome_iff_exists.1 hsome
    refine ⟨.loop b, hlast, hown, ?_⟩
    rw [step_loop hd hc, hloop]
    rfl
  · rw [hacc, flush_acc]
    rfl
  · have hsent : msg.seq ∈ s'.loop.acked := by
      cases hstops' with
      | flushing hp' _ _ _ _ =>
        rw [hstopped] at hp'
        cases hp'
      | acking hp' _ _ _ =>
        rw [hstopped] at hp'
        cases hp'
      | stopped _ hall => exact hall _ hmsg msg rfl
    exact ⟨hsent, acked_held hl hreach msg.seq hsent⟩

end

/-- Three rows or five nanoseconds a batch, and fetches of two messages. -/
def threeRows : Config := { smallFetches with policy := { smallBatches.policy with maxRecords := 3 } }

/-- A stream of trades with ascending ids. -/
def ascending (seq : Nat) : Option (List UInt8) := some [seq.toUInt8]

/-- Two trades are buffered, and the pull loop waits for the end of their fetch. -/
def buffered : List Action :=
  [.fetch (.ok ()), .arrive 0, .arrive 1, .next, .send, .next, .send, .loop (.recv 0 0 0),
    .loop (.recv 1 1 1)]

/-- While the buffered trades are written and acked, the fetch ends and the next one fails. -/
def lastFlush : List Action :=
  [.close, .next, .loop (.write .allOk), .loop (.ack 1 (.ok ())), .fetch (.error "no responders"),
    .loop (.ack 0 (.ok ()))]

theorem stop_drains_trade : ∃ s s',
    Machine.run (step threeRows decodeByte ascending) (.start threeRows .created) buffered = some s ∧
    Machine.run (step threeRows decodeByte ascending) s (.loop .stop :: lastFlush) = some s' ∧
    s'.loop.phase = .stopped ∧ s'.loop.acc.acks = [] ∧
    ∀ seq ∈ [0, 1], seq ∈ s'.loop.acked ∧ ∀ r, row decodeByte ascending seq = some r →
      ∃ r' ∈ s'.loop.world.lake.rows, r'.key = r.key := by
  have hx : (Machine.run (step threeRows decodeByte ascending) (.start threeRows .created)
      buffered).map (fun s => (decide ("incoming" ∉ s.loop.world.sink.ctx.names),
        s.loop.acc.acks)) = some (true, [.nats ⟨0, 0, [0]⟩, .nats ⟨1, 1, [1]⟩]) := by decide +kernel
  obtain ⟨s, hs, heq⟩ := Option.map_eq_some_iff.1 hx
  obtain ⟨hfree, hacks⟩ := Prod.mk.inj heq
  have hy : (Machine.run (step threeRows decodeByte ascending) (.start threeRows .created)
      (buffered ++ .loop .stop :: lastFlush)).isSome := by decide +kernel
  obtain ⟨s', hs'⟩ := Option.isSome_iff_exists.1 hy
  obtain ⟨m, hm, hr⟩ := Machine.run_append.1 hs'
  cases hs.symm.trans hm
  have hlast : ∀ b ∈ lastFlush, b.Lasting := by
    simp [lastFlush, Action.Lasting, Batcher.Action.Lasting, WriteOps.allOk_allOk]
  obtain ⟨hcount, hiff, -, hall⟩ := stop_drains rfl hs (of_decide_eq_true hfree) hlast hr
  rw [hacks] at hcount
  have hstopped := hiff.1 (Nat.add_right_cancel hcount)
  obtain ⟨hempty, hacked⟩ := hall hstopped
  rw [hacks] at hacked
  refine ⟨s, s', hs, hr, hstopped, hempty, fun seq hseq => ?_⟩
  rcases List.mem_cons.1 hseq with rfl | hseq
  · exact hacked ⟨0, 0, [0]⟩ List.mem_cons_self
  · rw [List.mem_singleton.1 hseq]
    exact hacked ⟨1, 1, [1]⟩ (List.mem_cons_of_mem _ (List.mem_singleton_self _))

end Batcher.Source
