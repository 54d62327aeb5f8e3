import CryptoLakehouse.Batcher.Proof.AtLeastOnce

/-!
# One row per key at the grain of the pull loop

With dedup on, one payload per key and no other writer, a message that is delivered again, at any
moment and to any place of the pipeline, adds no second row. `Once` is the invariant of the batch
loop, here with the stream's events as what may be on its way.

* `once_loop` — every step of the batch loop keeps it.
* `once_run` — so does every run of the source and the loop.
* `own_row` — so each acked message has exactly one row, its own.
-/

namespace Batcher

open Trades Sink

/-- `once_step` for what the loop does on its own, whatever the events are. -/
theorem once_loop {cfg : Config} {decode : List UInt8 → Option TradeEvent}
    {stream : Nat → List UInt8} {s s' : State} {a : Action} {Events : TradeEvent → Prop}
    (hd : cfg.policy.dedup = true)
    (hev : ∀ e e', Events e → Events e' → e.key = e'.key → e = e')
    (hown : ∀ files, a ≠ .foreign files) (hdel : ∀ seq reply, a ≠ .deliver seq reply)
    (h : Once Events s) (hs : step cfg decode stream s a = some s') : Once Events s' := by
  cases step_takes hs with
  | deliver _ => exact absurd rfl (hdel _ _)
  | recv _ hc => exact h.push hc _ _
  | recvFull _ hc t => exact (h.push hc _ _).flush t
  | flush _ t => exact h.flush t
  | write hb => exact h.written hev hb _
  | ack _ _ _ => exact (h.invoke _ _).ackingOf _ _ _ _
  | crash =>
    exact ⟨opened_connect _ _ h.opened.lakeSchema, h.uniq, h.agrees, nofun, hd, nofun, nofun,
      h.committed⟩
  | foreign _ => exact absurd rfl (hown _)

end Batcher

namespace Batcher.Source

open Trades Sink

/-- The events of the stream. -/
def EventOf (decode : List UInt8 → Option TradeEvent) (stream : Nat → Option (List UInt8))
    (e : TradeEvent) : Prop := ∃ seq payload, stream seq = some payload ∧ decode payload = some e

/-- No other writer commits. -/
def Own (a : Action) : Prop := ∀ files, a ≠ .loop (.foreign files)

section
variable {cfg : Config} {decode : List UInt8 → Option TradeEvent}
  {stream : Nat → Option (List UInt8)} {s s' : State} {a : Action}

theorem once_source (hd : cfg.policy.dedup = true)
    (hev : ∀ e e', EventOf decode stream e → EventOf decode stream e' → e.key = e'.key → e = e')
    (ha : Own a) (hi : Inv decode stream s) (h : Once (EventOf decode stream) s.loop)
    (hs : step cfg decode stream s a = some s') : Once (EventOf decode stream) s'.loop := by
  cases step_takes hs with
  | pull _ => exact h
  | arrive _ _ _ _ =>
    exact ⟨h.opened, h.uniq, h.agrees, h.channel, h.dedup, h.buffered, h.flushing, h.committed⟩
  | @ackBad reply d msg hp => exact h.invoke reply (.nats msg)
  | gone _ =>
    exact ⟨h.opened, h.uniq, h.agrees, h.channel, h.dedup, h.buffered, h.flushing, h.committed⟩
  | send hp _ =>
    exact ⟨h.opened, h.uniq, h.agrees, (hi.send hp).events.channel, h.dedup, h.buffered,
      h.flushing, h.committed⟩
  | loop hl hdel _ => exact once_loop hd hev (fun files he => ha files (by rw [he])) hdel h hl
  | crash =>
    exact ⟨opened_connect _ _ h.opened.lakeSchema, h.uniq, h.agrees, nofun, hd, nofun, nofun,
      h.committed⟩

/-- After any run: distinct keys, and rows that agree with the stream. -/
theorem once_run {lake : Lake} (hl : lake.table.schema = Trades.schema)
    (hd : cfg.policy.dedup = true)
    (hev : ∀ e e', EventOf decode stream e → EventOf decode stream e' → e.key = e'.key → e = e')
    (hu : Keyed.Uniq TradeRow.key lake.rows)
    (hagree : ∀ r ∈ lake.rows, ∀ e, EventOf decode stream e → r.key = some e.key →
      r = TradeRow.ofEvent e)
    {as : List Action} (hown : ∀ a ∈ as, Own a)
    (h : Machine.run (step cfg decode stream) (.start cfg lake) as = some s) :
    Once (EventOf decode stream) s.loop := by
  have hstart : Once (EventOf decode stream) (State.start cfg lake).loop :=
    ⟨opened_connect _ _ hl, hu, hagree, nofun, hd, nofun, nofun, nofun⟩
  exact (Machine.run_inv_of
    (I := fun s => Inv decode stream s ∧ Once (EventOf decode stream) s.loop) (A := Own)
    (fun _ _ _ ha h hs => ⟨inv_step h.1 hs, once_source hd hev ha h.1 h.2 hs⟩) hown
    ⟨inv_start hl, hstart⟩ h).2

/-- An acked message has exactly one row, its own. -/
theorem own_row {lake : Lake} (hl : lake.table.schema = Trades.schema) {as : List Action}
    (ho : Once (EventOf decode stream) s.loop)
    (h : Machine.run (step cfg decode stream) (.start cfg lake) as = some s) {seq : Nat}
    {payload : List UInt8} {e : TradeEvent} (hseq : seq ∈ s.loop.acked)
    (hp : stream seq = some payload) (he : decode payload = some e) :
    TradeRow.ofEvent e ∈ s.loop.world.lake.rows ∧
      (Keyed.keys TradeRow.key s.loop.world.lake.rows).count e.key = 1 := by
  obtain ⟨r, hr, hk⟩ := acked_held hl h seq hseq (.ofEvent e) (by simp [row, hp, he])
  obtain rfl := ho.agrees r hr e ⟨seq, payload, hp, he⟩ hk
  exact ⟨hr, ho.uniq.count_eq_one (Keyed.mem_keys.2 ⟨_, hr, hk⟩)⟩

end

end Batcher.Source
