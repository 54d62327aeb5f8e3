import Mathlib.Algebra.BigOperators.Group.List.Basic
import CryptoLakehouse.Batcher.Proof.Headroom
import CryptoLakehouse.Lib.Amortized

/-!
# No hot loop

Neither loop spins: not on a stream that is empty, not while fetches fail or break, not while every
commit fails. Every step that the process takes by itself is paid for by a delivery, by a sleep of the
pull loop, or by a start of the process (`credit`).

* `Batcher.credit_step` — a delivery that is handed on pays for its receipt, its flush and its ack.
* `no_hot_loop` — the number of the steps in any run.
-/

namespace Batcher

open Trades Sink

/-- The steps that the batch loop takes by itself. -/
def Action.works : Action → Bool
  | .recv _ _ _ => true
  | .due _ => true
  | .write _ => true
  | .ack _ _ => true
  | _ => false

/-- What is left of a flush. -/
def Phase.credit : Phase → Nat
  | flushing batch => 2 * batch.acks.length
  | acking _ _ pending _ => pending.length
  | _ => 0

/-- The steps that what the batch loop holds may still cost. -/
def State.credit (s : State) : Nat :=
  4 * s.channel.length + 3 * s.acc.acks.length + s.phase.credit

/-- A batch that is flushed has a handle. -/
def State.Flushes (s : State) : Prop := ∀ batch, s.phase = .flushing batch → batch.acks ≠ []

section
variable {cfg : Config} {decode : List UInt8 → Option TradeEvent} {stream : Nat → List UInt8}
  {s s' : State} {a : Action} {batch : MicroBatch} {written : WriteStats} {pending : List Ack}
  {n : Nat} {t : FlushTrigger}

@[simp] theorem next_credit : (Phase.next t).credit = 0 := by
  cases t <;> rfl

/-- A flush takes the handles of what is buffered. -/
theorem flush_credit : (s.flush t).credit ≤ 4 * s.channel.length + 2 * s.acc.acks.length := by
  have hacc : (s.flush t).acc.acks = [] := by rw [flush_acc, take_eq_new]; rfl
  rw [State.credit, flush_channel, hacc, List.length_nil, Nat.mul_zero, Nat.add_zero]
  refine Nat.add_le_add_left ?_ _
  unfold State.flush
  dsimp only
  split
  · rw [next_credit]
    exact Nat.zero_le _
  · exact le_rfl

theorem acking_credit : (s.acking batch written pending n).credit ≤
    4 * s.channel.length + 3 * s.acc.acks.length + pending.length := by
  rw [State.credit, acking_channel, acking_acc]
  refine Nat.add_le_add_left ?_ _
  unfold State.acking
  split
  · rw [next_credit]
    exact Nat.zero_le _
  · exact le_rfl

theorem written_credit {ops : WriteOps} : (s.written batch ops).credit ≤
    4 * s.channel.length + 3 * s.acc.acks.length + batch.acks.length := by
  unfold State.written
  split
  · exact acking_credit
  · refine Nat.add_le_add_left ?_ _
    rw [next_credit]
    exact Nat.zero_le _

theorem invoke_channel (reply : Reply) (ack : Ack) : (s.invoke reply ack).channel = s.channel := by
  cases ack <;> rfl

/-- The credit does not depend on what is acked. -/
theorem invoke_credit (reply : Reply) (ack : Ack) : (s.invoke reply ack).credit = s.credit := by
  rw [State.credit, invoke_channel, (upstream_invoke reply ack).acc, (upstream_invoke reply ack).phase]
  rfl

/-- **A step** of the batch loop is paid for by what it holds. -/
theorem credit_step (h : Loaded cfg.policy s) (hf : s.Flushes)
    (hd : ∀ seq reply, a ≠ .deliver seq reply) (hc : a ≠ .crash)
    (hs : step cfg decode stream s a = some s') :
    s'.credit + (if a.works then 1 else 0) ≤ s.credit := by
  obtain ⟨es, hes⟩ := h.holds
  cases a with
  | recv seen now flushNow =>
    simp only [step] at hs
    split at hs
    · rename_i envelope channel hp hch
      have hpush : (s.acc.push envelope seen now).2.acks.length = s.acc.acks.length + 1 := by
        rw [Accumulator.push_acks, List.length_append, List.length_singleton]
      have hcredit : s.credit = 4 * (channel.length + 1) + 3 * s.acc.acks.length := by
        rw [State.credit, hp, hch, List.length_cons]
        rfl
      rw [hcredit]
      cases hs
      show State.credit _ + 1 ≤ _
      split
      · refine (Nat.add_le_add_right flush_credit 1).trans ?_
        dsimp only
        omega
      · show 4 * channel.length + 3 * (s.acc.push envelope seen now).2.acks.length +
          s.phase.credit + 1 ≤ _
        rw [hp, hpush]
        show _ + 0 + 1 ≤ _
        omega
    · cases hs
  | due now =>
    simp only [step] at hs
    split at hs
    · rename_i hp
      split at hs
      · rename_i hdue
        have hpos := List.length_pos_iff.2 (acks_of_timeToFlush hes hdue)
        cases hs
        have hcredit : s.credit = 4 * s.channel.length + 3 * s.acc.acks.length := by
          rw [State.credit, hp]
          rfl
        rw [hcredit]
        refine (Nat.add_le_add_right flush_credit 1).trans ?_
        omega
      · cases hs
    · cases hs
  | stop =>
    simp only [step] at hs
    split at hs
    · rename_i hp
      cases hs
      refine (Nat.add_le_add_right flush_credit 0).trans ?_
      rw [State.credit]
      omega
    · cases hs
  | write ops =>
    simp only [step] at hs
    split at hs
    · rename_i batch hp
      cases hs
      have hpos := List.length_pos_iff.2 (hf batch hp)
      refine (Nat.add_le_add_right written_credit 1).trans ?_
      rw [State.credit, hp]
      show _ ≤ _ + 2 * batch.acks.length
      omega
    · cases hs
  | ack i reply =>
    simp only [step] at hs
    split at hs
    · rename_i batch written pending n hp
      split at hs
      · obtain ⟨ack, hi, rfl⟩ := Option.map_eq_some_iff.1 hs
        obtain ⟨hlt, -⟩ := List.getElem?_eq_some_iff.1 hi
        refine (Nat.add_le_add_right acking_credit 1).trans ?_
        rw [(upstream_invoke reply ack).acc, invoke_channel, State.credit, hp,
          List.length_eraseIdx_of_lt hlt]
        show _ ≤ _ + pending.length
        omega
      · cases hs
    · cases hs
  | deliver seq reply => exact absurd rfl (hd seq reply)
  | crash => exact absurd rfl hc
  | foreign files =>
    simp only [step] at hs
    split at hs
    · cases hs
      exact le_rfl
    · cases hs

/-- What is flushed has a handle. -/
theorem flushes_flush (hnil : s.acc.rows = [] ↔ s.acc.acks = []) : (s.flush t).Flushes := by
  intro batch hb
  obtain ⟨rfl, hne⟩ := flush_flushing hb
  exact mt hnil.2 hne

theorem flushes_step (h : Loaded cfg.policy s) (hf : s.Flushes)
    (hs : step cfg decode stream s a = some s') : s'.Flushes := by
  obtain ⟨es, hes⟩ := h.holds
  cases step_takes hs with
  | deliver _ =>
    unfold State.Flushes
    rw [(upstream_deliver _ _).phase]
    exact hf
  | recv _ _ => exact hf
  | recvFull _ _ t => exact flushes_flush hes.push.rows_nil
  | flush _ t => exact flushes_flush hes.rows_nil
  | write _ => exact fun _ hb => absurd hb written_ne_flushing
  | ack _ _ _ => exact fun _ hb => absurd hb acking_ne_flushing
  | crash => exact fun _ hb => nomatch hb
  | foreign _ => exact hf

end

end Batcher

namespace Batcher.Source

open Trades Sink

/-- The steps that the process takes by itself. -/
def Action.works : Action → Bool
  | .fetch _ => true
  | .next => true
  | .ackBad _ => true
  | .send => true
  | .loop a => a.works
  | _ => false

def Action.arrives : Action → Bool
  | .arrive _ => true
  | _ => false

/-- The pull loop has slept, or the process starts. -/
def Action.rests : Action → Bool
  | .wake => true
  | .crash => true
  | _ => false

/-- The steps that a fetch may still cost, with the next one if it has brought something. -/
def Draining.credit (d : Draining) : Nat := 8 * d.messages.length + if d.pulled then 3 else 1

def Puller.credit : Puller → Nat
  | fetching => 2
  | draining d => d.credit
  | acking d _ => d.credit + 1
  | sending d _ => d.credit + 5
  | sleeping => 0
  | returned => 0

/-- The steps that what the process holds may still cost. -/
def State.credit (s : State) : Nat := s.puller.credit + s.loop.credit

section
variable {cfg : Config} {decode : List UInt8 → Option TradeEvent}
  {stream : Nat → Option (List UInt8)} {s s' : State} {a : Action}

/-- What its fetch brings is the pull loop's. -/
theorem setFetch_credit {p : Puller} {d d' : Draining} {k : Nat} (h : p.fetch? = some d)
    (hd : d'.credit = d.credit + k) : (p.setFetch d').credit = p.credit + k := by
  cases p with
  | fetching => cases h
  | draining _ =>
    cases h
    exact hd
  | acking _ _ =>
    cases h
    simp only [Puller.setFetch, Puller.credit, hd]
    omega
  | sending _ _ =>
    cases h
    simp only [Puller.setFetch, Puller.credit, hd]
    omega
  | sleeping => cases h
  | returned => cases h

theorem arrived_credit (d : Draining) (msg : Message) :
    Draining.credit { d with arrived := d.arrived ++ [.ok msg], room := d.room - 1 } =
      d.credit + 8 := by
  simp [Draining.credit, Draining.messages]
  omega

theorem failed_credit (d : Draining) (why : String) :
    Draining.credit { d with arrived := d.arrived ++ [.error why] } = d.credit + 0 := by
  simp [Draining.credit, Draining.messages]

/-- The end of a fetch. -/
theorem outcome_credit (d : Draining) : (Puller.after d.outcome).credit + 1 ≤ d.credit := by
  unfold Draining.outcome Draining.credit
  split
  · show 2 + 1 ≤ _
    omega
  · show 0 + 1 ≤ _
    omega

/-- A message that is read pays for its way. -/
theorem next_credit {d : Draining} {p : Puller} (hn : d.next decode = some p) :
    p.credit + 1 ≤ d.credit := by
  unfold Draining.next at hn
  split at hn
  · rename_i msg arrived ha
    have hm : d.messages.length = { d with arrived, pulled := true }.messages.length + 1 := by
      rw [Draining.messages_ok ha, List.length_cons]
    have hd : { d with arrived, pulled := true }.credit + 5 + 1 ≤ d.credit := by
      simp only [Draining.credit, if_true, hm]
      split <;> omega
    split at hn
    · cases hn
      exact hd
    · cases hn
      refine Nat.le_trans ?_ hd
      show _ + 1 + 1 ≤ _
      omega
  · cases hn
    exact outcome_credit d
  · split at hn
    · cases hn
      exact outcome_credit d
    · cases hn

/-- **A step** is paid for by what the process holds, by a delivery, or by a rest. -/
theorem credit_step (hload : Loaded cfg.policy s.loop) (hf : s.loop.Flushes)
    (hs : step cfg decode stream s a = some s') : (if a.works then 1 else 0) + s'.credit ≤
      s.credit + ((if a.arrives then 8 else 0) + if a.rests then 2 else 0) := by
  cases a with
  | fetch reply =>
    simp only [step] at hs
    split at hs
    · rename_i hp
      have hcredit : s.credit = 2 + s.loop.credit := by rw [State.credit, hp]; rfl
      rw [hcredit]
      split at hs
      · cases hs
        show 1 + (1 + s.loop.credit) ≤ _
        omega
      · cases hs
        show 1 + (0 + s.loop.credit) ≤ _
        omega
    · cases hs
  | arrive seq =>
    simp only [step, State.arrive] at hs
    split at hs
    · rename_i d hd
      split at hs
      · obtain ⟨payload, -, rfl⟩ := Option.map_eq_some_iff.1 hs
        have hset := setFetch_credit hd (arrived_credit d ⟨seq, s.loop.deliveries, payload⟩)
        show 0 + ((s.puller.setFetch _).credit + s.loop.credit) ≤
          s.puller.credit + s.loop.credit + (8 + 0)
        omega
      · cases hs
    · cases hs
  | fail why =>
    obtain ⟨d, hd, rfl⟩ := Option.map_eq_some_iff.1 hs
    have hset := setFetch_credit hd (failed_credit d why)
    show 0 + ((s.puller.setFetch _).credit + s.loop.credit) ≤ s.puller.credit + s.loop.credit + 0
    omega
  | close =>
    obtain ⟨d, hd, rfl⟩ := Option.map_eq_some_iff.1 hs
    have hset : (s.puller.setFetch { d with ended := true }).credit = s.puller.credit + 0 :=
      setFetch_credit hd rfl
    show 0 + ((s.puller.setFetch _).credit + s.loop.credit) ≤ s.puller.credit + s.loop.credit + 0
    omega
  | next =>
    simp only [step] at hs
    split at hs
    · rename_i d hp
      obtain ⟨p, hn, rfl⟩ := Option.map_eq_some_iff.1 hs
      have hle := next_credit hn
      rw [State.credit, State.credit, hp]
      show 1 + (p.credit + s.loop.credit) ≤ d.credit + s.loop.credit + 0
      omega
    · cases hs
  | ackBad reply =>
    simp only [step] at hs
    split at hs
    · rename_i d msg hp
      cases hs
      rw [State.credit, State.credit, invoke_credit, hp]
      show 1 + (d.credit + s.loop.credit) ≤ d.credit + 1 + s.loop.credit + 0
      omega
    · cases hs
  | send =>
    simp only [step, State.send] at hs
    split at hs
    · rename_i d envelope hp
      have hcredit : s.credit = d.credit + 5 + s.loop.credit := by rw [State.credit, hp]; rfl
      rw [hcredit]
      split at hs
      · cases hs
        show 1 + (0 + s.loop.credit) ≤ _
        omega
      · split at hs
        · cases hs
          show 1 + (d.credit + Batcher.State.credit { s.loop with
            channel := s.loop.channel ++ [envelope] }) ≤ _
          simp only [Batcher.State.credit, List.length_append, List.length_singleton]
          omega
        · cases hs
    · cases hs
  | wake =>
    simp only [step] at hs
    split at hs
    · rename_i hp
      cases hs
      rw [State.credit, State.credit, hp]
      show 0 + (2 + s.loop.credit) ≤ 0 + s.loop.credit + (0 + 2)
      omega
    · cases hs
  | loop b =>
    obtain ⟨hd, hc, loop, hl, rfl⟩ := step_loop_cases hs
    have hle := Batcher.credit_step hload hf hd hc hl
    show (if b.works = true then 1 else 0) + (s.puller.credit + loop.credit) ≤
      s.puller.credit + s.loop.credit + 0
    omega
  | crash =>
    cases hs
    show 0 + (2 + 0) ≤ s.credit + (0 + 2)
    omega

theorem flushes_source (hload : Loaded cfg.policy s.loop) (h : s.loop.Flushes)
    (hs : step cfg decode stream s a = some s') : s'.loop.Flushes := by
  cases step_takes hs with
  | pull _ => exact h
  | arrive _ _ _ _ => exact h
  | ackBad _ => exact h
  | gone _ => exact h
  | send _ _ => exact h
  | loop hl _ _ => exact flushes_step hload h hl
  | crash => exact fun _ hb => nomatch hb

/-- **No hot loop.** In every run, whatever fails, the steps that the process takes by itself are at
most eight for each delivery, two for each time that the pull loop has slept or the process was started
again, and two more. -/
theorem no_hot_loop {lake : Lake} {as : List Action}
    (h : Machine.run (step cfg decode stream) (.start cfg lake) as = some s) :
    as.countP Action.works ≤ 8 * as.countP Action.arrives + 2 * as.countP Action.rests + 2 := by
  have hcost : ((as.map fun a => if a.works then 1 else 0).sum : Nat) + (s.credit : Int) ≤
      (State.start cfg lake).credit + ((as.map fun a =>
        (if a.arrives then 8 else 0) + if a.rests then 2 else 0).sum : Nat) := by
    refine Machine.run_cost (A := fun _ => True) (V := fun s => (s.credit : Int))
      (I := fun s => Loaded cfg.policy s.loop ∧ s.loop.Flushes) (fun s a s' _ hi hs => ?_)
      (fun s a s' _ hi hs => ?_) (fun _ _ => trivial) ⟨.new rfl rfl, fun _ hb => nomatch hb⟩ h
    · exact ⟨loaded_source hi.1 hs, flushes_source hi.1 hi.2 hs⟩
    · have := credit_step hi.1 hi.2 hs
      omega
  rw [List.sum_map_add, Machine.cost_countP, Machine.cost_countP, Machine.cost_countP] at hcost
  have hstart : (State.start cfg lake).credit = 2 := rfl
  omega

end

/-- Fetches that fail, break and bring nothing. -/
def outage : List Action :=
  [.fetch (.error "no responders"), .wake, .fetch (.ok ()), .fail "connection reset", .next, .wake,
    .fetch (.ok ()), .close, .next, .wake, .fetch (.ok ()), .arrive 1, .next, .ackBad (.ok ())]

theorem no_hot_loop_outage :
    (∃ s, Machine.run (step smallFetches decodeByte twoMessages) (.start smallFetches .created) outage =
      some s) ∧ 8 ≤ 8 * 1 + 2 * 3 + 2 := by
  have hx : (Machine.run (step smallFetches decodeByte twoMessages) (.start smallFetches .created)
      outage).isSome := by decide +kernel
  obtain ⟨s, hs⟩ := Option.isSome_iff_exists.1 hx
  exact ⟨⟨s, hs⟩, no_hot_loop hs⟩

end Batcher.Source
