import CryptoLakehouse.Batcher.Pipeline
import CryptoLakehouse.Sink.Proof.WriteBatch

/-!
# Ack safety

No message leaves the stream before its row is in the table. `Safe` is the invariant: every handle
on its way (in the channel, with the buffered rows, with the batch being written) belongs to a
message whose key travels with it, so a handle only reaches the acks of a committed batch once its
key is stored. `Handles` follows the handles themselves: each delivery's handle is in one place at
a time, so a handle that was let go of with a failed batch is never invoked.

* `ack_safe` — the two, for every run.
-/

namespace Batcher

open Trades Sink Fallible

/-- The key of the event is in the table. -/
def Stored (w : World) (e : TradeEvent) : Prop := e.key ∈ Keyed.keys TradeRow.key w.lake.rows

/-- The event's key is one of the rows'. -/
def Among (rows : List TradeEvent) (e : TradeEvent) : Prop := e.key ∈ rows.map TradeEvent.key

/-- A handle of the stream is one of a decodable message whose event satisfies `P`. -/
def Backed (decode : List UInt8 → Option TradeEvent) (P : TradeEvent → Prop) (ack : Ack) : Prop :=
  ∀ msg, ack = .nats msg → ∃ e, decode msg.payload = some e ∧ P e

theorem Backed.mono {decode : List UInt8 → Option TradeEvent} {P Q : TradeEvent → Prop} {ack : Ack}
    (h : Backed decode P ack) (hpq : ∀ e, P e → Q e) : Backed decode Q ack := fun msg hm => by
  obtain ⟨e, he, hp⟩ := h msg hm
  exact ⟨e, he, hpq e hp⟩

/-- The invariant (module doc). -/
structure Safe (decode : List UInt8 → Option TradeEvent) (s : State) : Prop where
  opened : Opened Trades.schema s.world
  channel : ∀ env ∈ s.channel, Backed decode (· = env.event) env.ack
  buffered : ∀ a ∈ s.acc.acks, Backed decode (Among s.acc.rows) a
  flushing : ∀ batch, s.phase = .flushing batch →
    ∀ a ∈ batch.acks, Backed decode (Among batch.rows) a
  acking : ∀ batch written pending n, s.phase = .acking batch written pending n →
    ∀ a ∈ pending, Backed decode (Stored s.world) a
  invoked : ∀ m ∈ s.history.invoked,
    decode m.payload = none ∨ ∃ e, decode m.payload = some e ∧ Stored s.world e

section
variable {cfg : Config} {decode : List UInt8 → Option TradeEvent} {stream : Nat → List UInt8}
  {s s' : State}

/-! ## What a part of a step leaves alone -/

theorem next_ne_flushing {t : FlushTrigger} {b : MicroBatch} : Phase.next t ≠ .flushing b := by
  cases t <;> nofun

theorem next_ne_acking {t : FlushTrigger} {b : MicroBatch} {w : WriteStats} {p : List Ack}
    {n : Nat} : Phase.next t ≠ .acking b w p n := by
  cases t <;> nofun

@[simp] theorem acking_world {batch : MicroBatch} {written : WriteStats} {pending : List Ack}
    {n : Nat} : (s.acking batch written pending n).world = s.world := by
  unfold State.acking
  split <;> rfl

theorem acking_acc {batch : MicroBatch} {written : WriteStats} {pending : List Ack} {n : Nat} :
    (s.acking batch written pending n).acc = s.acc := by
  unfold State.acking
  split <;> rfl

theorem acking_ne_flushing {batch b : MicroBatch} {written : WriteStats} {pending : List Ack}
    {n : Nat} : (s.acking batch written pending n).phase ≠ .flushing b := by
  unfold State.acking
  split
  · exact next_ne_flushing
  · exact fun hb => by cases hb

theorem written_acc {batch : MicroBatch} {ops : WriteOps} : (s.written batch ops).acc = s.acc := by
  unfold State.written
  split
  · exact acking_acc
  · rfl

theorem written_ne_flushing {batch b : MicroBatch} {ops : WriteOps} :
    (s.written batch ops).phase ≠ .flushing b := by
  unfold State.written
  split
  · exact acking_ne_flushing
  · exact next_ne_flushing

theorem flush_acc {t : FlushTrigger} : (s.flush t).acc = (s.acc.take t).2 := by
  unfold State.flush
  dsimp only
  split <;> rfl

/-- The batch that a flush has taken is not empty. -/
theorem flush_flushing {t : FlushTrigger} {b : MicroBatch} (h : (s.flush t).phase = .flushing b) :
    b = (s.acc.take t).1 ∧ b.rows ≠ [] := by
  unfold State.flush at h
  dsimp only at h
  split at h
  · exact absurd h next_ne_flushing
  · rename_i hne
    cases h
    exact ⟨rfl, by simpa [MicroBatch.isEmpty] using hne⟩

/-- Only the source's side of the state has changed. -/
structure Upstream (s s' : State) : Prop where
  phase : s'.phase = s.phase
  acc : s'.acc = s.acc
  stats : s'.stats = s.stats
  world : s'.world = s.world

theorem upstream_invoke (reply : Reply) (ack : Ack) : Upstream s (s.invoke reply ack) := by
  cases ack <;> exact ⟨rfl, rfl, rfl, rfl⟩

theorem upstream_deliver (msg : Message) (reply : Reply) :
    Upstream s (s.deliver decode msg reply) := by
  unfold State.deliver processMessage
  cases decode msg.payload with
  | none =>
    obtain ⟨h1, h2, h3, h4⟩ :=
      upstream_invoke (s := { s with deliveries := s.deliveries + 1 }) reply (.nats msg)
    exact ⟨h1, h2, h3, h4⟩
  | some e =>
    dsimp only [Option.map_some]
    split <;> exact ⟨rfl, rfl, rfl, rfl⟩

/-! ## The parts of a step -/

theorem safe_start {lake : Lake} (h : lake.table.schema = Trades.schema) :
    Safe decode (.start cfg lake) where
  opened := opened_connect _ _ h
  channel := nofun
  buffered := nofun
  flushing := nofun
  acking := nofun
  invoked := nofun

theorem Safe.restart (h : Safe decode s) : Safe decode (s.restart cfg) where
  opened := opened_connect _ _ h.opened.lakeSchema
  channel := nofun
  buffered := nofun
  flushing := nofun
  acking := nofun
  invoked := h.invoked

theorem Safe.flush (h : Safe decode s) (t : FlushTrigger) : Safe decode (s.flush t) := by
  unfold State.flush Accumulator.take
  dsimp only
  split
  · exact ⟨h.opened, h.channel, nofun, fun _ hb => absurd hb next_ne_flushing,
      fun _ _ _ _ hb => absurd hb next_ne_acking, h.invoked⟩
  · refine ⟨h.opened, h.channel, nofun, fun batch hb a ha => ?_, nofun, h.invoked⟩
    cases hb
    exact h.buffered a ha

theorem Safe.push (h : Safe decode s) {envelope : Envelope} {channel : List Envelope}
    (hc : s.channel = envelope :: channel) (seen now : Instant) :
    Safe decode { s with channel, acc := (s.acc.push envelope seen now).2 } where
  opened := h.opened
  channel env he := h.channel env (hc ▸ List.mem_cons_of_mem _ he)
  buffered a ha := by
    rw [Accumulator.push_acks, List.mem_append, List.mem_singleton] at ha
    rcases ha with ha | rfl
    · exact (h.buffered a ha).mono fun e he =>
        (Accumulator.rows_sublist_push.map TradeEvent.key).subset he
    · exact (h.channel envelope (hc ▸ List.mem_cons_self)).mono fun e he => by
        subst he
        exact Accumulator.mem_keys_push
  flushing := h.flushing
  acking := h.acking
  invoked := h.invoked

/-- The world moves on without losing a row. -/
theorem Safe.world (h : Safe decode s) {w : World} (hw : Opened Trades.schema w)
    (hrows : ∀ x ∈ s.world.lake.rows, x ∈ w.lake.rows) : Safe decode { s with world := w } := by
  have hst : ∀ e, Stored s.world e → Stored w e := fun e he => by
    obtain ⟨r, hr, hk⟩ := Keyed.mem_keys.1 he
    exact Keyed.mem_keys.2 ⟨r, hrows r hr, hk⟩
  refine ⟨hw, h.channel, h.buffered, h.flushing, fun b w' p n hp a ha => ?_, fun m hm => ?_⟩
  · exact (h.acking b w' p n hp a ha).mono hst
  · rcases h.invoked m hm with hn | ⟨e, he, hs⟩
    · exact .inl hn
    · exact .inr ⟨e, he, hst e hs⟩

/-- The acks of stored messages go on. -/
theorem Safe.ackingOf (h : Safe decode s) {pending : List Ack}
    (hp : ∀ a ∈ pending, Backed decode (Stored s.world) a) (batch : MicroBatch)
    (written : WriteStats) (n : Nat) : Safe decode (s.acking batch written pending n) := by
  unfold State.acking
  split
  · exact ⟨h.opened, h.channel, h.buffered, fun _ hb => absurd hb next_ne_flushing,
      fun _ _ _ _ hb => absurd hb next_ne_acking, h.invoked⟩
  · refine ⟨h.opened, h.channel, h.buffered, nofun, fun _ _ p _ hp' a ha => ?_, h.invoked⟩
    cases hp'
    exact hp a ha

/-- An ack of a message that may leave the stream. -/
theorem Safe.invoke (h : Safe decode s) {ack : Ack} (reply : Reply)
    (ha : ∀ msg, ack = .nats msg →
      decode msg.payload = none ∨ ∃ e, decode msg.payload = some e ∧ Stored s.world e) :
    Safe decode (s.invoke reply ack) := by
  cases ack with
  | nats msg =>
    refine ⟨h.opened, h.channel, h.buffered, h.flushing, h.acking, fun m hm => ?_⟩
    rcases List.mem_append.1 hm with hm | hm
    · exact h.invoked m hm
    · exact ha m (by rw [List.mem_singleton.1 hm])
  | counter id => exact h
  | none => exact h

theorem Safe.deliver (h : Safe decode s) (msg : Message) (reply : Reply) :
    Safe decode (s.deliver decode msg reply) := by
  have h' : Safe decode { s with deliveries := s.deliveries + 1 } :=
    ⟨h.opened, h.channel, h.buffered, h.flushing, h.acking, h.invoked⟩
  unfold State.deliver processMessage
  cases hd : decode msg.payload with
  | none => exact h'.invoke reply fun m hm => .inl (by cases hm; exact hd)
  | some e =>
    dsimp only [Option.map_some]
    split
    · exact ⟨h.opened, h.channel, h.buffered, h.flushing, h.acking, h.invoked⟩
    · refine ⟨h.opened, fun env he => ?_, h.buffered, h.flushing, h.acking, h.invoked⟩
      rcases List.mem_append.1 he with he | he
      · exact h.channel env he
      · obtain rfl := List.mem_singleton.1 he
        intro m hm
        cases hm
        exact ⟨e, hd, rfl⟩

/-- The end of a write: the batch's acks only run when its keys are stored. -/
theorem Safe.written (h : Safe decode s) {batch : MicroBatch} (hb : s.phase = .flushing batch)
    (ops : WriteOps) : Safe decode (s.written batch ops) := by
  have hw := writeBatch_spec h.opened ops batch.rows
  unfold State.written
  cases hr : writeBatch ops batch.rows s.world with
  | ok written w =>
    rw [hr] at hw
    have hs := h.world hw.opened fun x hx => hw.mem_rows hx
    have hs' : Safe decode { s with
        world := w
        history := { s.history with committed := s.history.committed ++ [batch.rows] } } :=
      ⟨hs.opened, hs.channel, hs.buffered, hs.flushing, hs.acking, hs.invoked⟩
    refine hs'.ackingOf (fun a ha => ?_) batch written 0
    refine (h.flushing batch hb a ha).mono fun e he => ?_
    obtain ⟨e', he', hk⟩ := List.mem_map.1 he
    have := hw.mem_keys rfl he'
    rwa [hk] at this
  | error e w =>
    rw [hr] at hw
    have hs := h.world hw.opened fun x hx => hw.mem_rows hx
    exact ⟨hs.opened, hs.channel, hs.buffered, fun _ hb => absurd hb next_ne_flushing,
      fun _ _ _ _ hb => absurd hb next_ne_acking, hs.invoked⟩

/-! ## One step -/

theorem safe_step {a : Action} (h : Safe decode s) (hs : step cfg decode stream s a = some s') :
    Safe decode s' := by
  cases step_takes hs with
  | deliver _ => exact h.deliver _ _
  | recv _ hc => exact h.push hc _ _
  | recvFull _ hc t => exact (h.push hc _ _).flush t
  | flush _ t => exact h.flush t
  | write hb => exact h.written hb _
  | @ack i reply batch written pending n ack hp hi n' =>
    have hpend := h.acking batch written pending n hp
    have hmem : ack ∈ pending := List.mem_of_getElem? hi
    refine (h.invoke reply fun msg hm => .inr (hpend ack hmem msg hm)).ackingOf
      (fun a ha => ?_) batch written _
    have := hpend a (List.mem_of_mem_eraseIdx ha)
    cases ack <;> exact this
  | crash => exact h.restart
  | foreign hf =>
    refine h.world (h.opened.foreign hf) fun x hx => ?_
    rw [append_rows]
    exact List.mem_append_left _ hx

/-! ## Handles -/

/-- The delivery a handle acknowledges. -/
def Ack.message : Ack → Option Message
  | .nats msg => some msg
  | .counter _ => Option.none
  | .none => Option.none

/-- The deliveries of a list of handles. -/
def handles (acks : List Ack) : List Message := acks.filterMap Ack.message

/-- The handles the flush at hand holds. -/
def Phase.acks : Phase → List Ack
  | .waiting => []
  | .flushing batch => batch.acks
  | .acking _ _ pending _ => pending
  | .stopped => []

/-- Every handle that was not dropped, where it is. -/
def State.live (s : State) : List Message :=
  handles (s.channel.map (·.ack)) ++ handles s.acc.acks ++ handles s.phase.acks ++
    handles s.history.failed ++ s.history.invoked

/-- Each delivery's handle is in one place. -/
structure Handles (stream : Nat → List UInt8) (s : State) : Prop where
  once : s.live.Nodup
  below : ∀ m ∈ s.live, m.delivery < s.deliveries
  payload : ∀ m ∈ s.live, m.payload = stream m.seq
  acked : ∀ seq ∈ s.acked, ∃ m ∈ s.history.invoked, m.seq = seq

@[simp] theorem handles_append {as bs : List Ack} : handles (as ++ bs) = handles as ++ handles bs :=
  List.filterMap_append

@[simp] theorem handles_nil : handles [] = [] := rfl

@[simp] theorem acks_waiting : Phase.waiting.acks = [] := rfl
@[simp] theorem acks_flushing {b : MicroBatch} : (Phase.flushing b).acks = b.acks := rfl
@[simp] theorem acks_acking {b : MicroBatch} {w : WriteStats} {p : List Ack} {n : Nat} :
    (Phase.acking b w p n).acks = p := rfl

@[simp] theorem next_acks {t : FlushTrigger} : (Phase.next t).acks = [] := by
  cases t <;> rfl

theorem live_flush (hp : s.phase = .waiting) (t : FlushTrigger) (m : Message) :
    (s.flush t).live.count m ≤ s.live.count m := by
  unfold State.flush Accumulator.take
  dsimp only
  split <;> simp [State.live, hp]

theorem live_push {envelope : Envelope} {channel : List Envelope}
    (hc : s.channel = envelope :: channel) (seen now : Instant) (m : Message) :
    { s with channel, acc := (s.acc.push envelope seen now).2 }.live.count m = s.live.count m := by
  have : handles (s.channel.map (·.ack)) =
      handles [envelope.ack] ++ handles (channel.map (·.ack)) := by
    rw [hc, List.map_cons, ← handles_append]
    rfl
  simp only [State.live, this, Accumulator.push_acks, handles_append, List.count_append]
  omega

theorem live_invoke (reply : Reply) (ack : Ack) (m : Message) :
    (s.invoke reply ack).live.count m = s.live.count m + (handles [ack]).count m := by
  cases ack with
  | nats msg => simp [State.invoke, State.live, handles, Ack.message, Nat.add_assoc]
  | counter id => rfl
  | none => rfl

theorem live_acking (batch : MicroBatch) (written : WriteStats) (pending : List Ack) (n : Nat)
    (m : Message) : (s.acking batch written pending n).live.count m + (handles s.phase.acks).count m =
      s.live.count m + (handles pending).count m := by
  unfold State.acking
  split
  · rename_i he
    rw [List.isEmpty_iff.1 he]
    simp only [State.live, next_acks, List.count_append, handles_nil, List.count_nil]
    omega
  · simp only [State.live, acks_acking, List.count_append]
    omega

theorem live_written {batch : MicroBatch} (hb : s.phase = .flushing batch) (ops : WriteOps)
    (m : Message) : (s.written batch ops).live.count m ≤ s.live.count m := by
  unfold State.written
  split
  · rename_i written w _
    have := live_acking (s := { s with
      world := w
      history := { s.history with committed := s.history.committed ++ [batch.rows] } })
      batch written batch.acks 0 m
    simp only [State.live, hb, acks_flushing, List.count_append] at this ⊢
    omega
  · simp only [State.live, hb, acks_flushing, next_acks, handles_append, List.count_append,
      handles_nil, List.count_nil]
    omega

theorem live_deliver (msg : Message) (reply : Reply) (m : Message) :
    (s.deliver decode msg reply).live.count m ≤ s.live.count m + [msg].count m := by
  unfold State.deliver processMessage
  cases decode msg.payload with
  | none =>
    exact (live_invoke reply (.nats msg) m).le
  | some e =>
    dsimp only [Option.map_some]
    split
    · exact Nat.le_add_right _ _
    · have hm : handles [.nats msg] = [msg] := rfl
      simp only [State.live, List.map_append, List.map_cons, List.map_nil, handles_append, hm,
        List.count_append]
      omega

/-- Nothing was acked, and nothing delivered. -/
structure Quiet (s s' : State) : Prop where
  acked : s'.acked = s.acked
  invoked : s'.history.invoked = s.history.invoked
  deliveries : s'.deliveries = s.deliveries

theorem quiet_flush (t : FlushTrigger) : Quiet s (s.flush t) := by
  unfold State.flush
  dsimp only
  split <;> exact ⟨rfl, rfl, rfl⟩

theorem quiet_acking (batch : MicroBatch) (written : WriteStats) (pending : List Ack) (n : Nat) :
    Quiet s (s.acking batch written pending n) := by
  unfold State.acking
  split <;> exact ⟨rfl, rfl, rfl⟩

theorem quiet_written (batch : MicroBatch) (ops : WriteOps) : Quiet s (s.written batch ops) := by
  unfold State.written
  split
  · obtain ⟨h1, h2, h3⟩ := quiet_acking (s := { s with
      world := _
      history := { s.history with committed := s.history.committed ++ [batch.rows] } })
      batch _ batch.acks 0
    exact ⟨h1, h2, h3⟩
  · exact ⟨rfl, rfl, rfl⟩

theorem live_ack {batch : MicroBatch} {written : WriteStats} {pending : List Ack} {n i : Nat}
    {ack : Ack} (hp : s.phase = .acking batch written pending n) (hi : pending[i]? = some ack)
    (reply : Reply) (n' : Nat) (m : Message) :
    ((s.invoke reply ack).acking batch written (pending.eraseIdx i) n').live.count m ≤
      s.live.count m := by
  have h1 := live_acking (s := s.invoke reply ack) batch written (pending.eraseIdx i) n' m
  have h2 := live_invoke (s := s) reply ack m
  have h3 : (handles pending).count m =
      (handles [ack]).count m + (handles (pending.eraseIdx i)).count m := by
    obtain ⟨hlt, rfl⟩ := List.getElem?_eq_some_iff.1 hi
    rw [← List.count_append, ← handles_append]
    exact ((List.getElem_cons_eraseIdx_perm hlt).symm.filterMap _).count_eq m
  have h4 : (s.invoke reply ack).phase.acks = pending := by cases ack <;> simp [State.invoke, hp]
  rw [h4] at h1
  omega

/-- Every acked message has an invoked handle. -/
def AckedInvoked (s : State) : Prop := ∀ seq ∈ s.acked, ∃ m ∈ s.history.invoked, m.seq = seq

theorem AckedInvoked.quiet (h : AckedInvoked s) (hq : Quiet s s') : AckedInvoked s' := by
  rw [AckedInvoked, hq.acked, hq.invoked]
  exact h

theorem AckedInvoked.invoke (h : AckedInvoked s) (reply : Reply) (ack : Ack) :
    AckedInvoked (s.invoke reply ack) := by
  cases ack with
  | counter id => exact h
  | none => exact h
  | nats msg =>
    intro seq hseq
    simp only [State.invoke] at hseq ⊢
    have hold : seq ∈ s.acked → ∃ m ∈ s.history.invoked ++ [msg], m.seq = seq := fun hs => by
      obtain ⟨m, hm, he⟩ := h seq hs
      exact ⟨m, List.mem_append_left _ hm, he⟩
    split at hseq
    · rcases List.mem_append.1 hseq with hs | hs
      · exact hold hs
      · exact ⟨msg, by simp, (List.mem_singleton.1 hs).symm⟩
    · exact hold hseq

/-- A step that makes no handle keeps each in one place. -/
theorem Handles.keep (h : Handles stream s) (hd : s'.deliveries = s.deliveries)
    (hl : ∀ m, s'.live.count m ≤ s.live.count m) (ha : AckedInvoked s') : Handles stream s' := by
  have hm : ∀ m ∈ s'.live, m ∈ s.live := fun m hm =>
    List.count_pos_iff.1 (Nat.lt_of_lt_of_le (List.count_pos_iff.2 hm) (hl m))
  refine ⟨?_, fun m hm' => hd ▸ h.below m (hm m hm'), fun m hm' => h.payload m (hm m hm'), ha⟩
  exact List.nodup_iff_count_le_one.2 fun m => (hl m).trans (List.nodup_iff_count_le_one.1 h.once m)

/-- The handle of the next delivery is a new one. -/
theorem Handles.fresh (h : Handles stream s) {seq : Nat} (hd : s'.deliveries = s.deliveries + 1)
    (hl : ∀ m, s'.live.count m ≤ s.live.count m + [⟨seq, s.deliveries, stream seq⟩].count m)
    (ha : AckedInvoked s') : Handles stream s' := by
  have hm : ∀ m ∈ s'.live, m ∈ s.live ∨ m = ⟨seq, s.deliveries, stream seq⟩ := fun m hm => by
    have := (Nat.lt_of_lt_of_le (List.count_pos_iff.2 hm) (hl m))
    rw [← List.count_append, List.count_pos_iff, List.mem_append, List.mem_singleton] at this
    exact this
  refine ⟨List.nodup_iff_count_le_one.2 fun m => (hl m).trans ?_, fun m hm' => ?_, fun m hm' => ?_,
    ha⟩
  · have h1 := List.nodup_iff_count_le_one.1 h.once m
    by_cases he : m = ⟨seq, s.deliveries, stream seq⟩
    · have h0 : m ∉ s.live := fun hin => by
        have := h.below m hin
        rw [he] at this
        exact Nat.lt_irrefl _ this
      rw [List.count_eq_zero.2 h0, he]
      simp
    · have : [(⟨seq, s.deliveries, stream seq⟩ : Message)].count m = 0 :=
        List.count_eq_zero.2 fun hm => he (List.mem_singleton.1 hm)
      omega
  · rw [hd]
    rcases hm m hm' with hin | rfl
    · exact Nat.lt_succ_of_lt (h.below m hin)
    · exact Nat.lt_succ_self _
  · rcases hm m hm' with hin | rfl
    · exact h.payload m hin
    · rfl

theorem handles_start {lake : Lake} : Handles stream (.start cfg lake) :=
  ⟨List.nodup_nil, nofun, nofun, nofun⟩

theorem Handles.push (h : Handles stream s) {envelope : Envelope} {channel : List Envelope}
    (hc : s.channel = envelope :: channel) (seen now : Instant) :
    Handles stream { s with channel, acc := (s.acc.push envelope seen now).2 } :=
  h.keep rfl (fun m => (live_push hc seen now m).le) h.acked

theorem Handles.flush (h : Handles stream s) (hp : s.phase = .waiting) (t : FlushTrigger) :
    Handles stream (s.flush t) :=
  h.keep (quiet_flush t).deliveries (live_flush hp t) (AckedInvoked.quiet h.acked (quiet_flush t))

theorem AckedInvoked.deliver (h : AckedInvoked s) (msg : Message) (reply : Reply) :
    AckedInvoked (s.deliver decode msg reply) := by
  unfold State.deliver processMessage
  cases decode msg.payload with
  | none => exact AckedInvoked.invoke (s := { s with deliveries := s.deliveries + 1 }) h _ _
  | some e =>
    dsimp only [Option.map_some]
    split <;> exact h

theorem deliver_deliveries (msg : Message) (reply : Reply) :
    (s.deliver decode msg reply).deliveries = s.deliveries + 1 := by
  unfold State.deliver processMessage
  cases decode msg.payload with
  | none => rfl
  | some e =>
    dsimp only [Option.map_some]
    split <;> rfl

theorem handles_step {a : Action} (h : Handles stream s)
    (hs : step cfg decode stream s a = some s') : Handles stream s' := by
  cases step_takes hs with
  | deliver _ =>
    exact h.fresh (deliver_deliveries _ _) (live_deliver _ _) (AckedInvoked.deliver h.acked _ _)
  | recv _ hc => exact h.push hc _ _
  | recvFull hp hc t => exact (h.push hc _ _).flush hp t
  | flush hp t => exact h.flush hp t
  | @write ops batch hb =>
    have hq := quiet_written (s := s) batch ops
    exact h.keep hq.deliveries (live_written hb ops) (AckedInvoked.quiet h.acked hq)
  | @ack i reply batch written pending n ack hp hi n' =>
    refine h.keep ?_ (live_ack hp hi reply n') ?_
    · rw [(quiet_acking _ _ _ _).deliveries]
      cases ack <;> rfl
    · exact (AckedInvoked.invoke h.acked reply ack).quiet (quiet_acking _ _ _ _)
  | crash =>
    refine h.keep rfl (fun m => ?_) h.acked
    simp only [State.restart, State.live, Accumulator.new, acks_waiting, List.map_nil, handles_nil,
      List.count_append, List.count_nil]
    omega
  | foreign _ => exact h.keep rfl (fun _ => Nat.le_refl _) h.acked

/-! ## Every run -/

/-- **Ack safety.** In every state of every run: a message whose ack was invoked does not decode, or
a committed row has its key; an acked message is one whose ack was invoked; and no handle of a
batch whose `write_batch` failed has been invoked. -/
theorem ack_safe {lake : Lake} (hl : lake.table.schema = Trades.schema) {as : List Action}
    (h : Machine.run (step cfg decode stream) (.start cfg lake) as = some s) :
    (∀ m ∈ s.history.invoked, decode (stream m.seq) = none ∨ ∃ e, decode (stream m.seq) = some e ∧
      ∃ r ∈ s.world.lake.rows, r.key = some e.key) ∧
    (∀ seq ∈ s.acked, ∃ m ∈ s.history.invoked, m.seq = seq) ∧
    ∀ m, Ack.nats m ∈ s.history.failed → m ∉ s.history.invoked := by
  have hsafe : Safe decode s :=
    Machine.run_inv (fun _ _ _ h hs => safe_step h hs) (safe_start hl) h
  have hh : Handles stream s :=
    Machine.run_inv (fun _ _ _ h hs => handles_step h hs) handles_start h
  refine ⟨fun m hm => ?_, hh.acked, fun m hf hi => ?_⟩
  · rw [← hh.payload m (List.mem_append_right _ hm)]
    refine (hsafe.invoked m hm).imp id fun ⟨e, he, hst⟩ => ⟨e, he, Keyed.mem_keys.1 hst⟩
  · have hf' : m ∈ handles s.history.failed := List.mem_filterMap.2 ⟨_, hf, rfl⟩
    exact List.disjoint_of_nodup_append hh.once (List.mem_append_right _ hf') hi

end

/-- A payload of one byte is the BTC trade with that id. -/
def decodeByte : List UInt8 → Option TradeEvent
  | [b] => some (btcTrade b.toUInt64 1000)
  | _ => none

/-- A stream of one trade, followed by payloads that do not decode. -/
def oneTrade : Nat → List UInt8
  | 0 => [7]
  | _ => []

/-- Two rows or five nanoseconds a batch, with dedup. -/
def smallBatches : Config := ⟨⟨2, 1000, 5, true⟩, "trades.trades", ⟨2⟩⟩

/-- The trade delivered twice, an undecodable payload between, the interval flush, both acks. -/
def redelivery : List Action :=
  [.deliver 0 (.ok ()), .deliver 1 (.ok ()), .deliver 0 (.ok ()), .recv 0 0 0, .recv 1 1 1, .due 5,
    .write .allOk, .ack 1 (.ok ()), .ack 0 (.error "connection closed")]

theorem ack_safe_redelivery : ∃ s,
    Machine.run (step smallBatches decodeByte oneTrade) (.start smallBatches .created) redelivery =
      some s ∧ s.acked = [1, 0] ∧
    ∀ m ∈ s.history.invoked, decodeByte (oneTrade m.seq) = none ∨
      ∃ e, decodeByte (oneTrade m.seq) = some e ∧ ∃ r ∈ s.world.lake.rows, r.key = some e.key := by
  have ha : (Machine.run (step smallBatches decodeByte oneTrade) (.start smallBatches .created)
      redelivery).map (·.acked) = some [1, 0] := by decide +kernel
  obtain ⟨s, hs, hacked⟩ := Option.map_eq_some_iff.1 ha
  exact ⟨s, hs, hacked, (ack_safe rfl hs).1⟩

end Batcher
