import CryptoLakehouse.Lib.Delivery
import CryptoLakehouse.Batcher.Proof.Source

/-!
# The source refines at-least-once delivery

The pull loop and the batch loop together, seen from outside, only store rows of the stream's
messages and finish with a message once its key is stored: they refine `Delivery`, with the table's
rows as what is stored and the acked messages as what is finished.

* `refines_delivery` — every run is matched by steps of `Delivery.Step`.
* `nothing_lost_or_made_up` — so what `Delivery` keeps holds of the table and the acks.
-/

namespace Batcher.Source

open Trades Sink

section
variable {cfg : Config} {decode : List UInt8 → Option TradeEvent}
  {stream : Nat → Option (List UInt8)} {s s' : State} {a : Action}

/-! ## The refinement -/

/-- The row of a message, if it decodes. -/
def row (decode : List UInt8 → Option TradeEvent) (stream : Nat → Option (List UInt8)) (seq : Nat) :
    Option TradeRow :=
  ((stream seq).bind decode).map .ofEvent

/-- What is seen from outside: the table's rows and the acked messages. -/
def seen (s : Batcher.State) (others : Set TradeRow) : Delivery.State Nat TradeRow where
  stored := { r | r ∈ s.world.lake.rows }
  finished := { seq | seq ∈ s.acked }
  others

/-- Seen from outside, with what others have stored among `others`. -/
def Seen (others : Set TradeRow) (s : State) (t : Delivery.State Nat TradeRow) : Prop :=
  ∃ so : Set TradeRow, so ⊆ others ∧ t = seen s.loop so

/-- The commits of another writer hold rows of `others` only. -/
def Within (others : Set TradeRow) (a : Action) : Prop :=
  ∀ files, a = .loop (.foreign files) → ∀ f ∈ files, ∀ r ∈ f.rows, r ∈ others

section
variable {b b' : Batcher.State} {so others : Set TradeRow}

theorem seen_congr (hr : b'.world.lake.rows = b.world.lake.rows) (ha : b'.acked = b.acked) :
    seen b' so = seen b so := by
  rw [seen, seen, hr, ha]

theorem seen_flush (t : FlushTrigger) : seen (b.flush t) so = seen b so := by
  refine seen_congr ?_ (quiet_flush t).acked
  unfold Batcher.State.flush
  dsimp only
  split <;> rfl

/-- The rows of a write are rows of messages. -/
theorem seen_written (ho : Opened Trades.schema b.world) {batch : MicroBatch}
    (hev : ∀ e ∈ batch.rows, ∃ seq payload, stream seq = some payload ∧ decode payload = some e)
    (ops : WriteOps) : Delivery.Step (row decode stream) TradeRow.key (seen b so)
      (seen (b.written batch ops) so) := by
  have hmono : ∀ r ∈ b.world.lake.rows, r ∈ (b.written batch ops).world.lake.rows := fun r hr => by
    rw [written_world]
    exact (writeBatch_spec ho ops batch.rows).mem_rows hr
  have heq : seen (b.written batch ops) so = { seen b so with
      stored := (seen b so).stored ∪
        { r | r ∈ (b.written batch ops).world.lake.rows ∧ r ∉ b.world.lake.rows } } := by
    rw [seen, seen, (quiet_written batch ops).acked]
    congr 1
    ext r
    by_cases hr : r ∈ b.world.lake.rows <;> simp [hr, hmono]
  rw [heq]
  refine .store _ fun r hr => ?_
  obtain ⟨hr, hn⟩ := hr
  rcases mem_written ho hr with h | ⟨e, he, rfl⟩
  · exact absurd h hn
  · obtain ⟨seq, payload, hp, hd⟩ := hev e he
    exact ⟨seq, by simp [row, hp, hd]⟩

/-- An ack of a message whose key is stored, or that is of no use. -/
theorem seen_invoke (reply : Reply) {ack : Ack} (h : ∀ msg, ack = .nats msg →
      ∀ r, row decode stream msg.seq = some r → Delivery.Held TradeRow.key (seen b so) r) :
    Relation.ReflTransGen (Delivery.Step (row decode stream) TradeRow.key) (seen b so)
      (seen (b.invoke reply ack) so) := by
  cases ack with
  | counter id => exact .refl
  | none => exact .refl
  | nats msg =>
    by_cases hr : reply = .ok ()
    · have heq : seen (b.invoke reply (.nats msg)) so =
          { seen b so with finished := insert msg.seq (seen b so).finished } := by
        simp only [seen, Batcher.State.invoke, hr, if_true]
        congr 1
        ext seq
        simp [or_comm]
      rw [heq]
      exact .single (.finish _ (h msg rfl))
    · have heq : seen (b.invoke reply (.nats msg)) so = seen b so := by
        simp [seen, Batcher.State.invoke, hr]
      rw [heq]

theorem held_of_stored {e : TradeEvent} (h : Stored b.world e) :
    Delivery.Held TradeRow.key (seen b so) (.ofEvent e) := by
  obtain ⟨r, hr, hk⟩ := Keyed.mem_keys.1 h
  exact ⟨r, hr, hk⟩

/-- A step of the batch loop is matched. -/
theorem seen_step (h : Inv decode stream s) {a : Batcher.Action} {loop : Batcher.State}
    (hs : Batcher.step cfg.toConfig decode (fun _ => []) s.loop a = some loop)
    (hd : ∀ seq reply, a ≠ .deliver seq reply) (hw : Within others (.loop a)) (hso : so ⊆ others) :
    ∃ so' ⊆ others, Relation.ReflTransGen (Delivery.Step (row decode stream) TradeRow.key)
      (seen s.loop so) (seen loop so') := by
  cases Batcher.step_takes hs with
  | deliver _ => exact absurd rfl (hd _ _)
  | recv _ _ => exact ⟨so, hso, .refl⟩
  | recvFull _ _ t => exact ⟨so, hso, by rw [seen_flush]; exact .refl⟩
  | flush _ t => exact ⟨so, hso, by rw [seen_flush]⟩
  | @write ops batch hb =>
    exact ⟨so, hso, .single (seen_written h.safe.opened (h.events.flushing batch hb) ops)⟩
  | @ack i reply batch written pending n ack hp hi n' =>
    refine ⟨so, hso, ?_⟩
    rw [seen_congr (by rw [acking_world]) (quiet_acking _ _ _ _).acked]
    refine seen_invoke reply fun msg hm r hr => ?_
    have hmem : ack ∈ pending := List.mem_of_getElem? hi
    obtain ⟨e, he, hst⟩ := h.safe.acking batch written pending n hp ack hmem msg hm
    have hpay : stream msg.seq = some msg.payload := by
      refine h.handed.payload msg (List.mem_append_left _ ?_)
      have : msg ∈ handles s.loop.phase.acks := by
        rw [hp]
        exact List.mem_filterMap.2 ⟨ack, hmem, by rw [hm]; rfl⟩
      simp [Batcher.State.live, this]
    have : r = .ofEvent e := by simpa [row, hpay, he] using hr.symm
    exact this ▸ held_of_stored hst
  | crash => exact ⟨so, hso, .refl⟩
  | @foreign files hf =>
    refine ⟨so ∪ { r | ∃ f ∈ files, r ∈ f.rows }, Set.union_subset hso ?_, .single ?_⟩
    · rintro r ⟨f, hf, hr⟩
      exact hw files rfl f hf r hr
    · have heq : seen { s.loop with
          world := { s.loop.world with lake := s.loop.world.lake.append files } }
          (so ∪ { r | ∃ f ∈ files, r ∈ f.rows }) = { seen s.loop so with
            stored := (seen s.loop so).stored ∪ { r | ∃ f ∈ files, r ∈ f.rows }
            others := (seen s.loop so).others ∪ { r | ∃ f ∈ files, r ∈ f.rows } } := by
        simp only [seen]
        congr 1
        ext r
        simp [append_rows]
      rw [heq]
      exact .other _

/-- **Simulation**: each step of the source and the batch loop is one of the delivery, or none. -/
theorem simulates (others : Set TradeRow) : Machine.Simulates (step cfg decode stream)
    (Within others) (Delivery.Step (row decode stream) TradeRow.key)
    fun s t => Inv decode stream s ∧ Seen others s t := by
  refine .of_inv (fun _ _ _ _ h hs => inv_step h hs) ?_
  rintro s a s' t hw h ⟨so, hso, rfl⟩ hs
  cases step_takes hs with
  | pull _ => exact ⟨_, .refl, so, hso, rfl⟩
  | arrive _ _ _ _ => exact ⟨_, .refl, so, hso, rfl⟩
  | @ackBad reply d msg hp =>
    refine ⟨_, seen_invoke reply fun m hm r hr => ?_, so, hso, rfl⟩
    have hbad := h.reads
    have hpay : stream msg.seq = some msg.payload := by
      refine h.handed.payload msg (List.mem_append_right _ ?_)
      simp [hp, Puller.messages]
    rw [hp] at hbad
    cases hm
    simp [row, hpay, show decode msg.payload = none from hbad] at hr
  | gone _ => exact ⟨_, .refl, so, hso, rfl⟩
  | send _ _ => exact ⟨_, .refl, so, hso, rfl⟩
  | loop hl hd _ =>
    obtain ⟨so', hso', hsteps⟩ := seen_step h hl hd hw hso
    exact ⟨_, hsteps, so', hso', rfl⟩
  | crash => exact ⟨_, .refl, so, hso, rfl⟩

end

/-! ## Every run -/

/-- The rows that other writers have committed along a run. -/
def foreignRows (as : List Action) : Set TradeRow :=
  { r | ∃ files, .loop (.foreign files) ∈ as ∧ ∃ f ∈ files, r ∈ f.rows }

/-- Any run from a state that keeps the invariant is matched. -/
theorem seen_run_from {as : List Action} (hinv : Inv decode stream s)
    (h : Machine.run (step cfg decode stream) s as = some s') : ∃ others ⊆ foreignRows as,
      Relation.ReflTransGen (Delivery.Step (row decode stream) TradeRow.key) (seen s.loop ∅)
        (seen s'.loop others) := by
  have hw : ∀ a ∈ as, Within (foreignRows as) a := fun a ha files hf f hm r hr =>
    ⟨files, hf ▸ ha, f, hm, hr⟩
  obtain ⟨t, hsteps, -, others, ho, rfl⟩ := (simulates (foreignRows as)).run hw
    ⟨hinv, ∅, Set.empty_subset _, rfl⟩ h
  exact ⟨others, ho, hsteps⟩

/-- Any run is matched. -/
theorem seen_run {lake : Lake} (hl : lake.table.schema = Trades.schema) {as : List Action}
    (h : Machine.run (step cfg decode stream) (.start cfg lake) as = some s) :
    ∃ others ⊆ foreignRows as, Relation.ReflTransGen (Delivery.Step (row decode stream) TradeRow.key)
      ⟨{ r | r ∈ lake.rows }, ∅, ∅⟩ (seen s.loop others) := by
  have hstart : seen (Batcher.State.start cfg.toConfig lake) ∅ = ⟨{ r | r ∈ lake.rows }, ∅, ∅⟩ := by
    simp [seen, Batcher.State.start, connect, Lake.rows]
  obtain ⟨others, ho, hsteps⟩ := seen_run_from (inv_start hl) h
  rw [State.start, hstart] at hsteps
  exact ⟨others, ho, hsteps⟩

/-- No row of a reachable state is gone in a later one. -/
theorem rows_mono_run {as : List Action} (hinv : Inv decode stream s)
    (h : Machine.run (step cfg decode stream) s as = some s') :
    ∀ r ∈ s.loop.world.lake.rows, r ∈ s'.loop.world.lake.rows := by
  obtain ⟨others, -, hsteps⟩ := seen_run_from hinv h
  exact fun r hr => Delivery.stored_mono hsteps hr

/-- The key of an acked message is stored. -/
theorem acked_held {lake : Lake} (hl : lake.table.schema = Trades.schema) {as : List Action}
    (h : Machine.run (step cfg decode stream) (.start cfg lake) as = some s) :
    ∀ seq ∈ s.loop.acked, ∀ r, row decode stream seq = some r →
      ∃ r' ∈ s.loop.world.lake.rows, r'.key = r.key := by
  obtain ⟨others, -, hsteps⟩ := seen_run hl h
  exact Machine.inv_of_steps (fun _ _ h hs => h.step hs)
    (show Delivery.Sound (row decode stream) TradeRow.key _ from
      fun _ h => absurd h (Set.notMem_empty _)) hsteps

/-- A row is one that was there, or another writer's, or a message's. -/
theorem rows_sourced {lake : Lake} (hl : lake.table.schema = Trades.schema) {as : List Action}
    (h : Machine.run (step cfg decode stream) (.start cfg lake) as = some s) :
    ∀ r ∈ s.loop.world.lake.rows,
      r ∈ lake.rows ∨ r ∈ foreignRows as ∨ ∃ seq, row decode stream seq = some r := by
  obtain ⟨others, ho, hsteps⟩ := seen_run hl h
  intro r hr
  have hsrc := Machine.inv_of_steps (fun _ _ h hs => h.step hs)
    (show Delivery.Sourced (row decode stream) { r | r ∈ lake.rows } _ from fun _ => .inl) hsteps
  exact (hsrc r hr).imp id fun h => h.imp (fun h => ho h) id

/-- **The source and the batch loop refine at-least-once delivery**: the table's rows and the acked
messages after any run are what some steps of `Delivery` lead to. -/
theorem refines_delivery {lake : Lake} (hl : lake.table.schema = Trades.schema) {as : List Action}
    (h : Machine.run (step cfg decode stream) (.start cfg lake) as = some s) :
    ∃ others ⊆ foreignRows as,
      Relation.ReflTransGen (Delivery.Step (row decode stream) TradeRow.key)
        ⟨{ r | r ∈ lake.rows }, ∅, ∅⟩
        ⟨{ r | r ∈ s.loop.world.lake.rows }, { seq | seq ∈ s.loop.acked }, others⟩ :=
  seen_run hl h

/-- **Nothing is lost and nothing is made up.** After any run, the key of every acked message that
decodes is in the table; every row of the table was there at first, or is the row of a message of
the stream, or another writer's; and no row of the table is gone after any further run. -/
theorem nothing_lost_or_made_up {lake : Lake} (hl : lake.table.schema = Trades.schema)
    {as : List Action} (h : Machine.run (step cfg decode stream) (.start cfg lake) as = some s) :
    (∀ seq ∈ s.loop.acked, ∀ r, row decode stream seq = some r →
      ∃ r' ∈ s.loop.world.lake.rows, r'.key = r.key) ∧
    (∀ r ∈ s.loop.world.lake.rows,
      r ∈ lake.rows ∨ r ∈ foreignRows as ∨ ∃ seq, row decode stream seq = some r) ∧
    (∀ r ∈ lake.rows, r ∈ s.loop.world.lake.rows) ∧
    ∀ bs s', Machine.run (step cfg decode stream) s bs = some s' →
      ∀ r ∈ s.loop.world.lake.rows, r ∈ s'.loop.world.lake.rows := by
  obtain ⟨others, -, hsteps⟩ := seen_run hl h
  refine ⟨acked_held hl h, rows_sourced hl h, fun r hr => Delivery.stored_mono hsteps hr,
    fun bs s' hr => ?_⟩
  exact rows_mono_run (inv_run hl h) hr

end

theorem refines_delivery_stale : ∃ s,
    Machine.run (step smallFetches decodeByte twoMessages) (.start smallFetches .created)
      staleRedelivery = some s ∧ s.loop.acked = [0, 1] ∧ s.loop.acc.rows = [btcTrade 7 1000] ∧
    ∃ others ⊆ foreignRows staleRedelivery,
      Relation.ReflTransGen (Delivery.Step (row decodeByte twoMessages) TradeRow.key)
        ⟨{ r | r ∈ Lake.created.rows }, ∅, ∅⟩
        ⟨{ r | r ∈ s.loop.world.lake.rows }, { seq | seq ∈ s.loop.acked }, others⟩ := by
  have ha : (Machine.run (step smallFetches decodeByte twoMessages) (.start smallFetches .created)
      staleRedelivery).map (fun s => (s.loop.acked, s.loop.acc.rows)) =
        some ([0, 1], [btcTrade 7 1000]) := by decide +kernel
  obtain ⟨s, hs, heq⟩ := Option.map_eq_some_iff.1 ha
  obtain ⟨hacked, hrows⟩ := Prod.mk.inj heq
  exact ⟨s, hs, hacked, hrows, refines_delivery rfl hs⟩

theorem nothing_lost_or_made_up_stale : ∃ s,
    Machine.run (step smallFetches decodeByte twoMessages) (.start smallFetches .created)
      staleRedelivery = some s ∧ s.loop.acked = [0, 1] ∧
    (∀ r ∈ s.loop.world.lake.rows, r ∈ Lake.created.rows ∨ r ∈ foreignRows staleRedelivery ∨
      ∃ seq, row decodeByte twoMessages seq = some r) ∧
    ∀ bs s', Machine.run (step smallFetches decodeByte twoMessages) s bs = some s' →
      ∀ r ∈ s.loop.world.lake.rows, r ∈ s'.loop.world.lake.rows := by
  have ha : (Machine.run (step smallFetches decodeByte twoMessages) (.start smallFetches .created)
      staleRedelivery).map (·.loop.acked) = some [0, 1] := by decide +kernel
  obtain ⟨s, hs, hacked⟩ := Option.map_eq_some_iff.1 ha
  obtain ⟨-, hsourced, -, hmono⟩ := nothing_lost_or_made_up rfl hs
  exact ⟨s, hs, hacked, hsourced, hmono⟩

end Batcher.Source
