import CryptoLakehouse.Batcher.Proof.Conservation
import CryptoLakehouse.Sink.Proof.CoBatch
import CryptoLakehouse.Sink.Proof.WriteBatch

/-!
# The two dedup stages

The accumulator drops a row whose key its batch holds already, whatever the row's `trade_ts`. The
sink drops a row whose key the table holds inside the batch's brackets. Where the flush triggers cut
the stream decides which of the two stages compares two trades, so it may decide whether the second
is stored (`CutSafe`).

* `dedupRows_pair`, `dedupRows_alone` — what one write appends for two rows, and for one.
* `cut_does_not_matter_iff` — two events leave the same rows in one micro-batch and in two exactly
  when `CutSafe` holds of them and the table.
-/

namespace Batcher

open Trades Sink Fallible

/-! ## Delivering micro-batches -/

/-- Writes micro-batches one after the other. -/
def writeAll : List (WriteOps × MicroBatch) → SinkM Unit
  | [] => return ()
  | (ops, batch) :: rest => do
    let _ ← writeBatch ops batch.rows
    writeAll rest

/-- Writes the batches that the calls take from a new accumulator. -/
def deliver (policy : BatchConfig) (cs : List Call) (opss : List WriteOps) : SinkM Unit :=
  writeAll (opss.zip ((Accumulator.new policy).calls cs).1)

section
variable (a b : Envelope) (clock : Nat → Instant)

/-- Both envelopes in one micro-batch. -/
def together (t : FlushTrigger) : List Call :=
  [.push a (clock 0) (clock 1), .push b (clock 2) (clock 3), .take t]

/-- Each envelope in a micro-batch of its own. -/
def apart (t t' : FlushTrigger) : List Call :=
  [.push a (clock 0) (clock 1), .take t, .push b (clock 2) (clock 3), .take t']

end

/-! ## What the two ways append -/

/-- The two stages agree on `a` and then `b`, over a table of these rows. -/
def CutSafe (dedup : Bool) (stored : List TradeRow) (a b : TradeEvent) : Prop :=
  if a.key = b.key then
    if dedup then a.tradeTs = b.tradeTs ∨ Held stored b
    else Held stored a ∧ Held stored b ∨ a.tradeTs ≠ b.tradeTs ∧ ¬InSight stored [a, b] a
  else ∀ e ∈ [a, b], InSight stored [a, b] e → Held stored e

section
variable {stored stored' : List TradeRow} {rows : List TradeEvent} {a b e : TradeEvent}

instance instDecidableCutSafe (dedup : Bool) (stored : List TradeRow) (a b : TradeEvent) :
    Decidable (CutSafe dedup stored a b) := by
  delta CutSafe
  infer_instance

theorem held_congr (hk : a.key = b.key) (ht : a.tradeTs = b.tradeTs) :
    Held stored a ↔ Held stored b := by simp only [Held, hk, ht]

theorem inSight_congr (hk : a.key = b.key) : InSight stored rows a ↔ InSight stored rows b := by
  have hx : a.exchange = b.exchange := congrArg Prod.fst hk
  simp only [InSight, hk, hx]

theorem held_perm (h : stored.Perm stored') : Held stored e ↔ Held stored' e := by
  simp only [Held, h.mem_iff]

theorem dedupRows_alone :
    dedupRows stored ([e].map .ofEvent) = if Held stored e then [] else [.ofEvent e] := by
  rw [dedupRows_ofEvent, List.filter_cons, List.filter_nil]
  by_cases h : Held stored e <;> simp [inSight_alone, h]

theorem dedupRows_pair : dedupRows stored ([a, b].map .ofEvent) =
    (if InSight stored [a, b] a then [] else [.ofEvent a]) ++
      if InSight stored [a, b] b then [] else [.ofEvent b] := by
  rw [dedupRows_ofEvent, List.filter_cons, List.filter_cons, List.filter_nil]
  by_cases ha : InSight stored [a, b] a <;> by_cases hb : InSight stored [a, b] b <;> simp [ha, hb]

/-- Once `a` is delivered, `b` finds it stored when it has its key and its `trade_ts`. -/
theorem held_append_dedupRows : Held (stored ++ dedupRows stored ([a].map .ofEvent)) b ↔
    Held stored b ∨ a.key = b.key ∧ a.tradeTs = b.tradeTs := by
  have happ : ∀ l : List TradeRow, Held (stored ++ l) b ↔ Held stored b ∨ Held l b := by
    intro l
    simp only [Held, List.mem_append, or_and_right, exists_or]
  have hone : Held [.ofEvent a] b ↔ a.key = b.key ∧ a.tradeTs = b.tradeTs := by
    simp [Held, TradeRow.ofEvent, TradeRow.key, TradeEvent.key]
  rw [dedupRows_alone]
  by_cases ha : Held stored a
  · rw [if_pos ha, List.append_nil]
    exact ⟨.inl, fun h => h.elim id fun he => (held_congr he.1 he.2).1 ha⟩
  · rw [if_neg ha, happ, hone]

/-- Two kept rows that differ are the same rows only when each is kept on both sides. -/
theorem perm_kept_iff {ra rb : TradeRow} (h : ra ≠ rb) {p q p' q' : Prop} [Decidable p]
    [Decidable q] [Decidable p'] [Decidable q'] :
    ((if p then [] else [ra]) ++ if q then [] else [rb]).Perm
      ((if p' then [] else [ra]) ++ if q' then [] else [rb]) ↔ (p ↔ p') ∧ (q ↔ q') := by
  by_cases hp : p <;> by_cases hq : q <;> by_cases hp' : p' <;> by_cases hq' : q' <;>
    simp [hp, hq, hp', hq', h, h.symm]

/-- **When the stages agree**, in rows: what one write of the accumulator's batch appends is what
two writes append. -/
theorem cutSafe_iff (dedup : Bool) :
    (dedupRows stored ((if dedup = true ∧ a.key = b.key then [a] else [a, b]).map .ofEvent)).Perm
      (dedupRows stored ([a].map .ofEvent) ++
        dedupRows (stored ++ dedupRows stored ([a].map .ofEvent)) ([b].map .ofEvent)) ↔
    CutSafe dedup stored a b := by
  rw [dedupRows_alone (e := b)]
  simp only [held_append_dedupRows]
  have hsa : Held stored a → InSight stored [a, b] a := fun h => h.inSight (by simp)
  have hsb : Held stored b → InSight stored [a, b] b := fun h => h.inSight (by simp)
  unfold CutSafe
  by_cases hk : a.key = b.key
  · simp only [hk, true_and, and_true, if_true]
    cases dedup with
    | true =>
      -- The accumulator keeps `a` only, so the second write must drop `b`.
      simp only [if_true]
      by_cases hb : Held stored b ∨ a.tradeTs = b.tradeTs
      · simp [hb, or_comm.1 hb]
      · rw [if_neg hb]
        refine iff_of_false (fun hp => ?_) fun h => hb (or_comm.1 h)
        have := hp.length_eq
        rw [List.length_append, List.length_singleton] at this
        omega
    | false =>
      -- Both are in sight of the one write, or neither is.
      have hs : InSight stored [a, b] a ↔ InSight stored [a, b] b := inSight_congr hk
      simp only [Bool.false_eq_true, if_false, dedupRows_pair, dedupRows_alone, ← hs]
      rw [← hs] at hsb
      by_cases ht : a.tradeTs = b.tradeTs
      · have hab : Held stored a ↔ Held stored b := held_congr hk ht
        by_cases ha : Held stored a <;> by_cases hi : InSight stored [a, b] a <;>
          simp_all
      · by_cases ha : Held stored a <;> by_cases hb : Held stored b <;>
          by_cases hi : InSight stored [a, b] a <;> simp_all
  · have hne : TradeRow.ofEvent a ≠ .ofEvent b := by
      intro h
      have := congrArg TradeRow.key h
      rw [TradeRow.key_ofEvent, TradeRow.key_ofEvent, Option.some.injEq] at this
      exact hk this
    simp only [hk, false_and, or_false, and_false, if_false, dedupRows_pair, dedupRows_alone]
    rw [perm_kept_iff hne, List.forall_mem_cons, List.forall_mem_singleton]
    exact and_congr ⟨Iff.mp, fun h => ⟨h, hsa⟩⟩ ⟨Iff.mp, fun h => ⟨h, hsb⟩⟩

end

/-! ## Delivering them -/

/-- The one batch of `together`: its rows are those the accumulator keeps. -/
theorem calls_together (policy : BatchConfig) (a b : Envelope) (clock : Nat → Instant)
    (t : FlushTrigger) : ∃ batch,
    ((Accumulator.new policy).calls (together a b clock t)).1 = [batch] ∧
    batch.rows = if policy.dedup = true ∧ a.event.key = b.event.key then [a.event]
      else [a.event, b.event] := by
  obtain ⟨h, -, -⟩ := calls_spec (holds_new policy) (together a b clock t)
  obtain ⟨batch, bs, hb, hn, he⟩ := List.forall₂_cons_left_iff.1 h
  rw [List.forall₂_nil_left_iff.1 hn] at he
  refine ⟨batch, he, ?_⟩
  rw [hb.rows]
  show (kept policy ([a] ++ [b])).map (·.event) = _
  rw [kept_concat, kept_singleton]
  have hm : b.event.key ∈ [a].map (·.event.key) ↔ a.event.key = b.event.key := by simp [eq_comm]
  by_cases hd : policy.dedup = true ∧ a.event.key = b.event.key
  · rw [if_pos hd, if_pos ⟨hd.1, hm.2 hd.2⟩]
    rfl
  · rw [if_neg hd, if_neg fun hx => hd ⟨hx.1, hm.1 hx.2⟩]
    rfl

theorem calls_apart (policy : BatchConfig) (a b : Envelope) (clock : Nat → Instant)
    (t t' : FlushTrigger) : ∃ batch batch',
    ((Accumulator.new policy).calls (apart a b clock t t')).1 = [batch, batch'] ∧
    batch.rows = [a.event] ∧ batch'.rows = [b.event] := by
  obtain ⟨h, -, -⟩ := calls_spec (holds_new policy) (apart a b clock t t')
  obtain ⟨batch, bs, hb, h, he⟩ := List.forall₂_cons_left_iff.1 h
  obtain ⟨batch', bs', hb', hn, rfl⟩ := List.forall₂_cons_left_iff.1 h
  rw [List.forall₂_nil_left_iff.1 hn] at he
  refine ⟨batch, batch', he, ?_, ?_⟩
  · rw [hb.rows]
    show (kept policy [a]).map (·.event) = _
    rw [kept_singleton]
    rfl
  · rw [hb'.rows]
    show (kept policy [b]).map (·.event) = _
    rw [kept_singleton]
    rfl

section
variable {ops : WriteOps} {batch : MicroBatch} {rest : List (WriteOps × MicroBatch)} {w w' : World}

/-- A successful delivery is a successful write of its first batch, which appends its new rows, and
a successful delivery of the rest. -/
theorem writeAll_cons (h : Opened Trades.schema w)
    (hok : succeeded (writeAll ((ops, batch) :: rest) w) = true) : ∃ w₁, Opened Trades.schema w₁ ∧
    w₁.lake.rows.Perm (w.lake.rows ++ w.newRows batch.rows) ∧
    writeAll ((ops, batch) :: rest) w = writeAll rest w₁ := by
  have hs := writeBatch_spec h ops batch.rows
  obtain ⟨u, w', hr⟩ := succeeded_iff.1 hok
  obtain ⟨st, w₁, hw, -⟩ := bind_ok.1 hr
  rw [hw] at hs
  exact ⟨w₁, hs.opened, hs.ok rfl, bind_of_ok hw⟩

end

/-- **When the cut does not matter**: on a table of any rows, two events leave the same rows in one
micro-batch and in two exactly when the two stages agree on them. -/
theorem cut_does_not_matter_iff {ident : String} {cfg : IcebergConfig} {lake : Lake}
    (hl : lake.table.schema = Trades.schema) (policy : BatchConfig) (a b : Envelope)
    (clock clock' : Nat → Instant) (t t₁ t₂ : FlushTrigger) (ops ops₁ ops₂ : WriteOps) :
    let one := deliver policy (together a b clock t) [ops] (connect ident cfg lake)
    let two := deliver policy (apart a b clock' t₁ t₂) [ops₁, ops₂] (connect ident cfg lake)
    succeeded one = true → succeeded two = true →
    ((final one).lake.rows.Perm (final two).lake.rows ↔
      CutSafe policy.dedup lake.rows a.event b.event) := by
  intro one two ho ht
  obtain ⟨batch, hc, hr⟩ := calls_together policy a b clock t
  obtain ⟨batch₁, batch₂, hc', hr₁, hr₂⟩ := calls_apart policy a b clock' t₁ t₂
  have hopen := opened_connect ident cfg hl
  have h1 : one = writeAll [(ops, batch)] (connect ident cfg lake) := by
    show writeAll _ _ = _
    rw [hc]
    rfl
  have h2 : two = writeAll [(ops₁, batch₁), (ops₂, batch₂)] (connect ident cfg lake) := by
    show writeAll _ _ = _
    rw [hc']
    rfl
  rw [h1] at ho ⊢
  rw [h2] at ht ⊢
  obtain ⟨v, -, hv, hw⟩ := writeAll_cons hopen ho
  obtain ⟨v₁, hv₁, hp₁, hw₁⟩ := writeAll_cons hopen ht
  rw [hw₁] at ht
  obtain ⟨v₂, -, hp₂, hw₂⟩ := writeAll_cons hv₁ ht
  rw [hw, hw₁, hw₂]
  rw [World.newRows, hr] at hv
  rw [World.newRows, hr₁] at hp₁
  have hd : v₁.newRows batch₂.rows =
      dedupRows (lake.rows ++ dedupRows lake.rows ([a.event].map .ofEvent))
        ([b.event].map .ofEvent) := by
    rw [World.newRows, hr₂]
    simp only [dedupRows_alone (e := b.event), held_perm hp₁]
    rfl
  rw [hd] at hp₂
  have hw' := hp₂.trans (hp₁.append_right _)
  rw [List.append_assoc] at hw'
  rw [← cutSafe_iff]
  refine Iff.trans ?_ (List.perm_append_left_iff lake.rows)
  exact ⟨fun h => hv.symm.trans (h.trans hw'), fun h => hv.trans (h.trans hw'.symm)⟩

/-- Two new trades, in one micro-batch and in two. -/
theorem cut_does_not_matter_iff_new :
    (final (deliver ⟨10, 1000, 10, true⟩
      (together ⟨btcTrade 1 0, 1, .none⟩ ⟨btcTrade 2 5, 1, .none⟩ (fun _ => 0) .count) [.allOk]
      (connect "trades.trades" ⟨5⟩ .created))).lake.rows.Perm
    (final (deliver ⟨10, 1000, 10, true⟩
      (apart ⟨btcTrade 1 0, 1, .none⟩ ⟨btcTrade 2 5, 1, .none⟩ (fun _ => 0) .count .count)
      [.allOk, .allOk] (connect "trades.trades" ⟨5⟩ .created))).lake.rows :=
  (cut_does_not_matter_iff rfl _ _ _ _ _ _ _ _ _ _ _ (by decide +kernel) (by decide +kernel)).2
    (by decide +kernel)

/-- Trade 7 of day 0 and its namesake of day 1: in one micro-batch the accumulator drops the second,
in two the sink stores it. -/
theorem cut_decides :
    let one := deliver ⟨10, 1000, 10, true⟩ (together ⟨btcTrade 7 0, 1, .none⟩
      ⟨btcTrade 7 86400000, 1, .none⟩ (fun _ => 0) .count) [.allOk]
      (connect "trades.trades" ⟨5⟩ .created)
    let two := deliver ⟨10, 1000, 10, true⟩ (apart ⟨btcTrade 7 0, 1, .none⟩
      ⟨btcTrade 7 86400000, 1, .none⟩ (fun _ => 0) .count .count) [.allOk, .allOk]
      (connect "trades.trades" ⟨5⟩ .created)
    succeeded one = true ∧ succeeded two = true ∧
      ¬(final one).lake.rows.Perm (final two).lake.rows := by
  decide +kernel

end Batcher
