import CryptoLakehouse.Batcher.Proof.SizePolicy
import CryptoLakehouse.Batcher.Proof.Source

/-!
# Headroom

`max_ack_pending` leaves room for one micro-batch in the batcher and one on its way to it, so that
the pull does not stall because unacked rows hit the cap. `Loaded` bounds what the batch loop holds,
`Counted` what the consumer and the fetch hold.

* `bounded` — the channel, the fetch and the unacked messages stay within their limits.
* `headroom` — while the pull waits with the channel and the duplicates of the batch at hand below
  `max_records`, the consumer has a message that it may deliver and that the process does not hold.
-/

namespace Batcher

open Trades Sink Caller

section
variable {cfg : Config} {decode : List UInt8 → Option TradeEvent} {stream : Nat → List UInt8}
  {s s' : State} {a : Action} {policy : BatchConfig}

/-! ## What the batch loop holds -/

/-- At most `max(max_records, 1)` rows at hand, and the duplicates among them. -/
structure Loaded (policy : BatchConfig) (s : State) : Prop where
  policy_eq : s.acc.policy = policy
  holds : ∃ es, Holds s.acc es
  below : s.acc.rows.length < max 1 policy.maxRecords
  busy : s.phase ≠ .waiting → s.acc.acks = []
  flushing : ∀ batch, s.phase = .flushing batch →
    batch.acks.length ≤ max 1 policy.maxRecords + batch.duplicatesDropped
  acking : ∀ batch written pending n, s.phase = .acking batch written pending n →
    pending.length ≤ max 1 policy.maxRecords + batch.duplicatesDropped

/-- The age trigger fires on a buffered batch only. -/
theorem acks_of_timeToFlush {acc : Accumulator} {es : List Envelope} (h : Holds acc es) {now : Instant}
    {d : Nat} (ht : acc.timeToFlush now = some d) : acc.acks ≠ [] := fun hnil => by
  rw [Accumulator.timeToFlush, h.firstSeen.1 (h.rows_nil.2 hnil)] at ht
  cases ht

/-- The duplicates in the batch at hand. -/
def State.duplicates (s : State) : Nat :=
  match s.phase with
  | .waiting => s.acc.duplicates
  | .flushing batch => batch.duplicatesDropped
  | .acking batch _ _ _ => batch.duplicatesDropped
  | .stopped => 0

theorem Loaded.new {policy : BatchConfig} (hacc : s.acc = .new policy) (hp : s.phase = .waiting) :
    Loaded policy s where
  policy_eq := by rw [hacc]; rfl
  holds := ⟨[], hacc ▸ holds_new policy⟩
  below := by
    rw [hacc]
    show 0 < max 1 policy.maxRecords
    omega
  busy h := absurd hp h
  flushing batch hb := by cases hp.symm.trans hb
  acking _ _ _ _ hb := by cases hp.symm.trans hb

/-- Nothing of the batch loop has changed. -/
theorem Loaded.frame (h : Loaded policy s) (hp : s'.phase = s.phase) (ha : s'.acc = s.acc) :
    Loaded policy s' where
  policy_eq := ha ▸ h.policy_eq
  holds := ha ▸ h.holds
  below := ha ▸ h.below
  busy hw := ha ▸ h.busy (hp ▸ hw)
  flushing batch hb := h.flushing batch (hp ▸ hb)
  acking batch written pending n hb := h.acking batch written pending n (hp ▸ hb)

/-- A flush takes what is buffered, up to a full batch. -/
theorem loaded_flush {es : List Envelope} (hpol : s.acc.policy = policy) (hes : Holds s.acc es)
    (hle : s.acc.rows.length ≤ max 1 policy.maxRecords) (t : FlushTrigger) :
    Loaded policy (s.flush t) := by
  have hacc : (s.flush t).acc = .new policy := by rw [flush_acc, take_eq_new, hpol]
  refine ⟨by rw [hacc]; rfl, ⟨[], hacc ▸ holds_new policy⟩, ?_, fun _ => by rw [hacc]; rfl,
    fun batch hb => ?_, fun batch written pending n hb => ?_⟩
  · rw [hacc]
    show 0 < max 1 policy.maxRecords
    omega
  · obtain ⟨rfl, -⟩ := flush_flushing hb
    have := (hes.take t).duplicates
    have hrows : (s.acc.take t).1.rows = s.acc.rows := rfl
    rw [hrows] at this
    omega
  · unfold State.flush at hb
    dsimp only at hb
    split at hb
    · exact absurd hb next_ne_acking
    · cases hb

theorem Loaded.ackingOf (h : Loaded policy s) (hacc : s.acc.acks = []) {batch : MicroBatch}
    {written : WriteStats} {pending : List Ack} {n : Nat}
    (hp : pending.length ≤ max 1 policy.maxRecords + batch.duplicatesDropped) :
    Loaded policy (s.acking batch written pending n) := by
  refine ⟨?_, ?_, ?_, fun _ => ?_, fun _ hb => absurd hb acking_ne_flushing,
    fun b w p m hb => ?_⟩
  · rw [acking_acc]
    exact h.policy_eq
  · rw [acking_acc]
    exact h.holds
  · rw [acking_acc]
    exact h.below
  · rw [acking_acc]
    exact hacc
  · unfold State.acking at hb
    split at hb
    · exact absurd hb next_ne_acking
    · cases hb
      exact hp

theorem loaded_recv (h : Loaded cfg.policy s) {seen now flushNow : Instant}
    (hs : step cfg decode stream s (.recv seen now flushNow) = some s') : Loaded cfg.policy s' := by
  simp only [step] at hs
  split at hs
  · rename_i envelope channel hp hc
    obtain ⟨es, hes⟩ := h.holds
    have hpol : (s.acc.push envelope seen now).2.policy = cfg.policy := by
      rw [Accumulator.push_policy, h.policy_eq]
    cases hs
    split
    · refine loaded_flush hpol hes.push ?_ _
      have hlt := h.below
      show (s.acc.push envelope seen now).2.rows.length ≤ _
      rcases Accumulator.push_rows s.acc envelope seen now with hr | ⟨hr, -⟩
      · rw [hr, List.length_append, List.length_singleton]
        omega
      · rw [hr]
        omega
    · rename_i hfull
      rw [push_fst, Bool.not_eq_true] at hfull
      refine ⟨hpol, ⟨_, hes.push⟩, ?_, fun hw => absurd hp hw, fun b hb => ?_,
        fun b w p n hb => ?_⟩
      · show (s.acc.push envelope seen now).2.rows.length < _
        by_cases hne : (s.acc.push envelope seen now).2.rows = []
        · rw [hne]
          show 0 < max 1 cfg.policy.maxRecords
          omega
        · have := (below_of_not_due hfull hne).1
          rw [hpol] at this
          omega
      · cases hp.symm.trans hb
      · cases hp.symm.trans hb
  · cases hs

theorem loaded_step (h : Loaded cfg.policy s) (hs : step cfg decode stream s a = some s') :
    Loaded cfg.policy s' := by
  cases step_takes hs with
  | deliver _ => exact h.frame (upstream_deliver _ _).phase (upstream_deliver _ _).acc
  | recv _ _ => exact loaded_recv h hs
  | recvFull _ _ _ => exact loaded_recv h hs
  | flush _ t =>
    obtain ⟨es, hes⟩ := h.holds
    exact loaded_flush h.policy_eq hes h.below.le t
  | @write ops batch hb =>
    have hacc := h.busy (by rw [hb]; nofun)
    unfold State.written
    split
    · rename_i written w _
      have h' : Loaded cfg.policy { s with
          world := w
          history := { s.history with committed := s.history.committed ++ [batch.rows] } } :=
        h.frame rfl rfl
      exact h'.ackingOf hacc (h.flushing batch hb)
    · exact ⟨h.policy_eq, h.holds, h.below, fun _ => hacc, fun _ hb => absurd hb next_ne_flushing,
        fun _ _ _ _ hb => absurd hb next_ne_acking⟩
  | @ack i reply batch written pending n ack hp hi n' =>
    have hup := upstream_invoke (s := s) reply ack
    have hle := h.acking batch written pending n hp
    refine (h.frame hup.phase hup.acc).ackingOf ?_ ?_
    · rw [hup.acc]
      exact h.busy (by rw [hp]; nofun)
    · rw [List.length_eraseIdx]
      split <;> omega
  | crash => exact .new rfl rfl
  | foreign _ => exact h.frame rfl rfl

/-- The handles the batch loop holds: a full batch, its duplicates, and the channel. -/
theorem Loaded.length_held (h : Loaded policy s) :
    s.held.length ≤ max 1 policy.maxRecords + s.duplicates + s.channel.length := by
  have hch : (handles (s.channel.map (·.ack))).length ≤ s.channel.length :=
    (List.length_filterMap_le _ _).trans (List.length_map _).le
  have hacc : (handles s.acc.acks).length ≤ s.acc.acks.length := List.length_filterMap_le _ _
  have hph : (handles s.phase.acks).length ≤ s.phase.acks.length := List.length_filterMap_le _ _
  have hat : s.phase.acks.length + s.acc.acks.length ≤ max 1 policy.maxRecords + s.duplicates := by
    cases hp : s.phase with
    | waiting =>
      obtain ⟨es, hes⟩ := h.holds
      have := hes.duplicates
      have := h.below
      simp only [acks_waiting, List.length_nil, State.duplicates, hp]
      omega
    | flushing batch =>
      have := h.flushing batch hp
      simp only [acks_flushing, State.duplicates, hp, h.busy (by rw [hp]; nofun), List.length_nil]
      omega
    | acking batch written pending n =>
      have := h.acking batch written pending n hp
      simp only [acks_acking, State.duplicates, hp, h.busy (by rw [hp]; nofun), List.length_nil]
      omega
    | stopped =>
      rw [h.busy (by rw [hp]; nofun)]
      exact Nat.zero_le _
  simp only [State.held, List.length_append]
  omega

end

end Batcher

namespace Batcher.Source

open Trades Sink

section
variable {cfg : Config} {decode : List UInt8 → Option TradeEvent}
  {stream : Nat → Option (List UInt8)} {s s' : State} {a : Action}

/-! ## What the consumer and the fetch hold -/

/-- The limits of the channel, the fetch and the consumer. -/
structure Limited (cfg : Config) (s : State) : Prop where
  channel : s.loop.channel.length ≤ cfg.capacity
  fetch : ∀ d, s.puller.fetch? = some d →
    s.puller.messages.length + d.room ≤ max cfg.fetchBatch 1
  unacked : s.unacked.length ≤ cfg.maxAckPending
  once : s.delivered.Nodup
  delivered : ∀ m ∈ s.live, m.seq ∈ s.delivered

theorem limited_start {lake : Lake} : Limited cfg (.start cfg lake) where
  channel := Nat.zero_le _
  fetch _ h := by cases h
  unacked := Nat.zero_le _
  once := List.nodup_nil
  delivered := nofun

/-- The acked messages have been delivered. -/
theorem Limited.acked (h : Limited cfg s) (ha : AckedInvoked s.loop) :
    ∀ seq ∈ s.loop.acked, seq ∈ s.delivered := fun seq hseq => by
  obtain ⟨m, hm, rfl⟩ := ha seq hseq
  exact h.delivered m (List.mem_append_left _ (List.mem_append_right _ hm))

/-- The pull loop holds at most the messages of one fetch. -/
theorem Limited.messages_le (h : Limited cfg s) :
    s.puller.messages.length ≤ max cfg.fetchBatch 1 := by
  have hf := h.fetch
  cases hp : s.puller with
  | fetching => exact Nat.zero_le _
  | sleeping => exact Nat.zero_le _
  | returned => exact Nat.zero_le _
  | draining d =>
    have := hf d (by rw [hp]; rfl)
    rw [hp] at this
    omega
  | acking d msg =>
    have := hf d (by rw [hp]; rfl)
    rw [hp] at this
    omega
  | sending d envelope =>
    have := hf d (by rw [hp]; rfl)
    rw [hp] at this
    omega

/-- More acks leave fewer unacked messages. -/
theorem unacked_le (hd : s'.delivered = s.delivered) (ha : s.loop.acked ⊆ s'.loop.acked) :
    s'.unacked.length ≤ s.unacked.length := by
  rw [State.unacked, State.unacked, hd]
  refine (List.monotone_filter_right s.delivered fun seq hs => ?_).length_le
  simp only [decide_eq_true_eq] at hs ⊢
  exact fun hin => hs (ha hin)

theorem setFetch_fetch {p : Puller} {d d' d₁ : Draining} (h : p.fetch? = some d)
    (h₁ : (p.setFetch d').fetch? = some d₁) : d₁ = d' := by
  cases p with
  | fetching => cases h
  | draining _ => cases h₁; rfl
  | acking _ _ => cases h₁; rfl
  | sending _ _ => cases h₁; rfl
  | sleeping => cases h
  | returned => cases h

/-- The pull loop's own steps keep the fetch within its limit. -/
theorem pulls_fetch {p p' : Puller} (h : Pulls cfg decode p p')
    (hf : ∀ d, p.fetch? = some d → p.messages.length + d.room ≤ max cfg.fetchBatch 1) :
    ∀ d, p'.fetch? = some d → p'.messages.length + d.room ≤ max cfg.fetchBatch 1 := by
  intro d hd
  have hle := (pulls_messages h).length_le
  cases h with
  | fetched =>
    cases hd
    simp [Puller.messages, Draining.messages, Draining.start]
  | refused => cases hd
  | @fail _ d₀ h₀ why =>
    rw [setFetch_fetch h₀ hd]
    have := hf d₀ h₀
    dsimp only
    omega
  | @close _ d₀ h₀ =>
    rw [setFetch_fetch h₀ hd]
    have := hf d₀ h₀
    dsimp only
    omega
  | @good d₀ _ _ _ _ _ =>
    have := hf d₀ rfl
    cases hd
    dsimp only
    omega
  | @bad d₀ _ _ _ _ =>
    have := hf d₀ rfl
    cases hd
    dsimp only
    omega
  | ended =>
    unfold Draining.outcome at hd
    split at hd <;> cases hd
  | wake => cases hd

theorem Limited.pull (h : Limited cfg s) {p : Puller} (hp : Pulls cfg decode s.puller p) :
    Limited cfg { s with puller := p } := by
  refine ⟨h.channel, pulls_fetch hp h.fetch, h.unacked, h.once, fun m hm => h.delivered m ?_⟩
  exact ((pulls_messages hp).append_left s.loop.live).subset hm

theorem Limited.arrive (h : Limited cfg s) {seq : Nat} {d : Draining} {payload : List UInt8}
    (hd : s.puller.fetch? = some d) (hr : 0 < d.room) (hs : s.Deliverable cfg seq) :
    Limited cfg (s.deliver d ⟨seq, s.loop.deliveries, payload⟩) := by
  have hm := deliver_messages hd ⟨seq, s.loop.deliveries, payload⟩
  have hdel : ∀ n ∈ s.delivered, n ∈ (s.deliver d ⟨seq, s.loop.deliveries, payload⟩).delivered :=
    fun n hn => by
      unfold State.deliver
      dsimp only
      split
      · exact hn
      · exact List.mem_append_left _ hn
  refine ⟨h.channel, fun d₁ hd₁ => ?_, ?_, ?_, fun m hm' => ?_⟩
  · have hlim := h.fetch d hd
    rw [hm, List.length_append, List.length_singleton]
    rw [State.deliver] at hd₁
    rw [setFetch_fetch hd hd₁]
    dsimp only
    omega
  · unfold State.unacked State.deliver
    dsimp only
    split
    · exact h.unacked
    · rename_i hn
      have := hs.2.resolve_left hn
      rw [List.filter_append, List.length_append]
      have h1 : ([seq].filter (· ∉ s.loop.acked)).length ≤ 1 := List.length_filter_le _ _
      unfold State.unacked at this
      omega
  · unfold State.deliver
    dsimp only
    split
    · exact h.once
    · rename_i hn
      exact List.nodup_append.2 ⟨h.once, List.nodup_singleton _, fun a ha b hb =>
        (List.mem_singleton.1 hb) ▸ ne_of_mem_of_not_mem ha hn⟩
  · rw [deliver_live hd] at hm'
    rcases List.mem_append.1 hm' with hm' | hm'
    · exact hdel _ (h.delivered m hm')
    · rw [List.mem_singleton.1 hm', State.deliver]
      dsimp only
      split
      · assumption
      · exact List.mem_append_right _ (List.mem_singleton_self _)

/-- What the batch loop does keeps the limits. -/
theorem Limited.loop (h : Limited cfg s) {loop : Batcher.State} (hk : KeepsHandles s.loop loop) :
    Limited cfg { s with loop } := by
  have hle : { s with loop }.unacked.length ≤ s.unacked.length := unacked_le rfl hk.ackedMono
  refine ⟨hk.channel.trans h.channel, h.fetch, hle.trans h.unacked, h.once,
    fun m hm => h.delivered m ?_⟩
  rcases List.mem_append.1 hm with hm | hm
  · refine List.mem_append_left _ (List.count_pos_iff.1 ?_)
    exact Nat.lt_of_lt_of_le (List.count_pos_iff.2 hm) (hk.live m)
  · exact List.mem_append_right _ hm

theorem Limited.ackBad (h : Limited cfg s) {d : Draining} {msg : Message}
    (hp : s.puller = .acking d msg) (reply : Reply) :
    Limited cfg { s with puller := .draining d, loop := s.loop.invoke reply (.nats msg) } := by
  have hle : { s with
      puller := .draining d, loop := s.loop.invoke reply (.nats msg) }.unacked.length ≤
      s.unacked.length := unacked_le rfl (invoke_acked reply (.nats msg))
  refine ⟨h.channel, fun d₁ hd₁ => ?_, hle.trans h.unacked, h.once, fun m hm => h.delivered m ?_⟩
  · have := h.fetch d (by rw [hp]; rfl)
    rw [hp, Puller.messages, List.length_cons] at this
    cases hd₁
    rw [Puller.messages]
    omega
  · exact (ackBad_live hp reply).mem_iff.1 hm

theorem Limited.send (h : Limited cfg s) {d : Draining} {envelope : Envelope}
    (hp : s.puller = .sending d envelope) (hc : s.loop.channel.length < cfg.capacity) :
    Limited cfg { s with
      puller := .draining d, loop := { s.loop with channel := s.loop.channel ++ [envelope] } } := by
  refine ⟨?_, fun d₁ hd₁ => ?_, h.unacked, h.once, fun m hm => h.delivered m ?_⟩
  · show (s.loop.channel ++ [envelope]).length ≤ _
    rw [List.length_append, List.length_singleton]
    omega
  · have := h.fetch d (by rw [hp]; rfl)
    rw [hp, Puller.messages, List.length_append] at this
    cases hd₁
    rw [Puller.messages]
    omega
  · exact (send_live hp).mem_iff.1 hm

theorem limited_step (h : Limited cfg s) (hs : step cfg decode stream s a = some s') :
    Limited cfg s' := by
  cases step_takes hs with
  | pull hp => exact h.pull hp
  | arrive hd hr hdel _ => exact h.arrive hd hr hdel
  | ackBad hp => exact h.ackBad hp _
  | gone _ =>
    refine ⟨h.channel, nofun, h.unacked, h.once, fun m hm => h.delivered m ?_⟩
    exact ((List.nil_sublist s.puller.messages).append_left s.loop.live).subset hm
  | send hp hc => exact h.send hp hc
  | loop hl hd _ => exact h.loop (keepsHandles_step hl hd)
  | crash =>
    refine ⟨Nat.zero_le _, nofun, h.unacked, h.once, fun m hm => h.delivered m ?_⟩
    simp only [State.live, Batcher.State.restart, Batcher.State.live, Accumulator.new, acks_waiting,
      Puller.messages, List.map_nil, handles_nil, List.append_nil, List.nil_append] at hm
    exact List.mem_append_left _ (by
      simp only [Batcher.State.live, List.mem_append] at hm ⊢
      tauto)

theorem loaded_source (h : Loaded cfg.policy s.loop) (hs : step cfg decode stream s a = some s') :
    Loaded cfg.policy s'.loop := by
  cases step_takes hs with
  | pull _ => exact h
  | arrive _ _ _ _ => exact h.frame rfl rfl
  | ackBad _ => exact h.frame rfl rfl
  | gone _ => exact h.frame rfl rfl
  | send _ _ => exact h.frame rfl rfl
  | loop hl _ _ => exact loaded_step h hl
  | crash => exact .new rfl rfl

/-! ## Every run -/

theorem loaded_run {lake : Lake} {as : List Action}
    (h : Machine.run (step cfg decode stream) (.start cfg lake) as = some s) :
    Loaded cfg.policy s.loop :=
  Machine.run_inv (I := fun s => Loaded cfg.policy s.loop) (fun _ _ _ h hs => loaded_source h hs)
    (.new rfl rfl) h

theorem limited_run {lake : Lake} {as : List Action}
    (h : Machine.run (step cfg decode stream) (.start cfg lake) as = some s) : Limited cfg s :=
  Machine.run_inv (fun _ _ _ h hs => limited_step h hs) limited_start h

/-- **Bounded**: in every state of every run the channel holds at most one micro-batch, the fetch
at most `fetch_batch` messages, the batch at hand fewer than `max_records` rows, and at most
`max_ack_pending` delivered messages are unacked. -/
theorem bounded {lake : Lake} {as : List Action}
    (h : Machine.run (step cfg decode stream) (.start cfg lake) as = some s) :
    s.loop.channel.length ≤ cfg.capacity ∧ s.puller.messages.length ≤ max cfg.fetchBatch 1 ∧
    s.loop.acc.rows.length < max 1 cfg.policy.maxRecords ∧ s.unacked.length ≤ cfg.maxAckPending := by
  have hlim := limited_run h
  have hload := loaded_run h
  exact ⟨hlim.channel, hlim.messages_le, hload.below, hlim.unacked⟩

theorem bounded_stale : ∃ s,
    Machine.run (step smallFetches decodeByte twoMessages) (.start smallFetches .created)
      staleRedelivery = some s ∧ s.unacked.length ≤ 4 := by
  have hx : (Machine.run (step smallFetches decodeByte twoMessages) (.start smallFetches .created)
      staleRedelivery).isSome := by decide +kernel
  obtain ⟨s, hs⟩ := Option.isSome_iff_exists.1 hx
  exact ⟨s, hs, (bounded hs).2.2.2⟩

/-- **Headroom**: whenever the pull loop has nothing in hand and the channel and the duplicates of
the batch at hand are together below `max_records`, the consumer may deliver every message that it
has not delivered yet, or it may deliver again one that the process does not hold. -/
theorem headroom {lake : Lake} (hl : lake.table.schema = Trades.schema) {as : List Action}
    (h : Machine.run (step cfg decode stream) (.start cfg lake) as = some s)
    (hp : s.puller.messages = [])
    (hroom : s.loop.channel.length + s.loop.duplicates < cfg.policy.maxRecords) :
    (∀ seq, seq ∉ s.delivered → s.Deliverable cfg seq) ∨
      ∃ seq ∈ s.delivered, s.Deliverable cfg seq ∧ ∀ m ∈ s.held, m.seq ≠ seq := by
  have hinv := inv_run hl h
  have hlim := limited_run h
  have hload := loaded_run h
  by_cases hcap : s.unacked.length < cfg.maxAckPending
  · exact .inl fun seq hn => ⟨fun ha => hn (hlim.acked hinv.acked seq ha), .inr hcap⟩
  -- The cap is reached: what the process holds is too little to reach it alone.
  have hlen : s.held.length < s.unacked.length := by
    have h1 := hload.length_held
    have h2 : cfg.policy.maxRecords * 2 ≤ cfg.maxAckPending := Nat.le_max_left _ _
    rw [State.held, hp, List.append_nil]
    omega
  have hex : ∃ seq ∈ s.unacked, seq ∉ s.held.map (·.seq) := by
    by_contra hno
    push Not at hno
    have hsub : s.unacked.Subperm (s.held.map (·.seq)) :=
      (hlim.once.filter _).subperm fun seq hs => hno seq hs
    have := hsub.length_le
    rw [List.length_map] at this
    omega
  obtain ⟨seq, hseq, hheld⟩ := hex
  obtain ⟨hdel, hack⟩ := List.mem_filter.1 hseq
  refine .inr ⟨seq, hdel, ⟨of_decide_eq_true hack, .inl hdel⟩, fun m hm he => hheld ?_⟩
  exact he ▸ List.mem_map_of_mem hm

end

/-- One message in the channel, and the pull waits. -/
theorem headroom_stale : ∃ s,
    Machine.run (step smallFetches decodeByte twoMessages) (.start smallFetches .created)
      (staleRedelivery.take 4) = some s ∧
    ((∀ seq, seq ∉ s.delivered → s.Deliverable smallFetches seq) ∨
      ∃ seq ∈ s.delivered, s.Deliverable smallFetches seq ∧ ∀ m ∈ s.held, m.seq ≠ seq) := by
  have hx : (Machine.run (step smallFetches decodeByte twoMessages) (.start smallFetches .created)
      (staleRedelivery.take 4)).map (fun s =>
        (s.puller.messages, s.loop.channel.length + s.loop.duplicates)) = some ([], 1) := by
    decide +kernel
  obtain ⟨s, hs, heq⟩ := Option.map_eq_some_iff.1 hx
  obtain ⟨hm, hn⟩ := Prod.mk.inj heq
  exact ⟨s, hs, headroom rfl hs hm (by rw [hn]; decide)⟩

end Batcher.Source
