import Mathlib.Algebra.Ring.Nat
import Mathlib.Data.List.Forall2
import CryptoLakehouse.Batcher.Accumulator
import CryptoLakehouse.Lib.Int64
import CryptoLakehouse.Lib.Window

/-!
# What the accumulator conserves

An accumulator is used by two calls, `push` and `take`; `calls` makes any sequence of them. Its
fields are a function of the envelopes pushed since the last `take` (`Holds`), of which `kept` says
whose rows are buffered: all of them, and with dedup on the first of each key.

* `holds_new`, `Holds.push` — a new accumulator holds nothing, and a push adds its envelope.
* `accumulator_conservation` — so each batch holds the envelopes of its epoch, no handle is lost or
  doubled, and a taken accumulator is a new one.
-/

namespace Batcher

open Trades Window

/-- A call of the accumulator, with the readings of the clock. -/
inductive Call
  | push (envelope : Envelope) (seen now : Instant)
  | take (trigger : FlushTrigger)

/-- The batches the calls take, and the accumulator after them. -/
def Accumulator.calls (acc : Accumulator) : List Call → List MicroBatch × Accumulator
  | [] => ([], acc)
  | .push envelope seen now :: cs => (acc.push envelope seen now).2.calls cs
  | .take trigger :: cs =>
    let (batch, acc) := acc.take trigger
    let (batches, acc) := acc.calls cs
    (batch :: batches, acc)

/-! ## What is pushed -/

/-- The pushed envelopes, in order. -/
def pushed : List Call → List Envelope
  | [] => []
  | .push envelope _ _ :: cs => envelope :: pushed cs
  | .take _ :: cs => pushed cs

/-- The envelopes pushed before each `take` since the one before it, and those pushed since the
last; `held` are pushed before the calls. -/
def epochsFrom (held : List Envelope) : List Call → List (List Envelope) × List Envelope
  | [] => ([], held)
  | .push envelope _ _ :: cs => epochsFrom (held ++ [envelope]) cs
  | .take _ :: cs =>
    let (epochs, rest) := epochsFrom [] cs
    (held :: epochs, rest)

def epochs (cs : List Call) : List (List Envelope) × List Envelope := epochsFrom [] cs

theorem epochsFrom_flatten {held : List Envelope} {cs : List Call} :
    (epochsFrom held cs).1.flatten ++ (epochsFrom held cs).2 = held ++ pushed cs := by
  induction cs generalizing held with
  | nil => simp [epochsFrom, pushed]
  | cons c cs ih =>
    cases c with
    | push envelope seen now =>
      rw [epochsFrom, ih, pushed, List.append_assoc]
      rfl
    | take trigger =>
      show (held ++ (epochsFrom [] cs).1.flatten) ++ (epochsFrom [] cs).2 = held ++ pushed cs
      rw [List.append_assoc, ih]
      rfl

/-- The envelopes whose rows are buffered: with dedup on, the first of each key. -/
def kept (policy : BatchConfig) (es : List Envelope) : List Envelope :=
  if policy.dedup then firsts (fun e => e.event.key) es else es

/-- What the byte trigger counts. -/
def payload (es : List Envelope) : Nat := (es.map fun e => max e.bytes 1).sum

@[simp] theorem payload_append {es es' : List Envelope} :
    payload (es ++ es') = payload es + payload es' := by simp [payload]

section
variable {policy : BatchConfig} {es : List Envelope} {envelope : Envelope}

@[simp] theorem kept_nil : kept policy [] = [] := by
  unfold kept
  split <;> rfl

theorem kept_concat : kept policy (es ++ [envelope]) = kept policy es ++
    if policy.dedup = true ∧ envelope.event.key ∈ es.map (·.event.key) then [] else [envelope] := by
  unfold kept
  by_cases hd : policy.dedup = true
  · rw [if_pos hd, if_pos hd, firsts_concat]
    by_cases hk : envelope.event.key ∈ es.map (·.event.key) <;> simp [hd, hk]
  · simp [hd]

@[simp] theorem kept_singleton : kept policy [envelope] = [envelope] := by
  show kept policy ([] ++ [envelope]) = _
  rw [kept_concat, kept_nil, if_neg fun h => List.not_mem_nil h.2]
  rfl

theorem kept_sublist : (kept policy es).Sublist es := by
  unfold kept
  split
  · exact firsts_sublist
  · exact List.Sublist.refl _

theorem mem_keys_kept {k : Key} :
    k ∈ (kept policy es).map (·.event.key) ↔ k ∈ es.map (·.event.key) := by
  unfold kept
  split
  · exact mem_map_firsts
  · exact Iff.rfl

end

/-! ## What an accumulator holds -/

/-- The accumulator's fields after the pushes of `es`. -/
structure Holds (acc : Accumulator) (es : List Envelope) : Prop where
  acks : acc.acks = es.map (·.ack)
  rows : acc.rows = (kept acc.policy es).map (·.event)
  seenKeys : acc.policy.dedup = true → acc.seenKeys = (acc.rows.map TradeEvent.key).toFinset
  duplicates : acc.duplicates + acc.rows.length = acc.acks.length
  bytes : acc.bytes = payload (kept acc.policy es)
  rows_nil : acc.rows = [] ↔ acc.acks = []
  firstSeen : acc.rows = [] ↔ acc.firstSeen = none

/-- The fields of a batch taken after the pushes of `es`. -/
structure Taken (policy : BatchConfig) (es : List Envelope) (batch : MicroBatch) : Prop where
  acks : batch.acks = es.map (·.ack)
  rows : batch.rows = (kept policy es).map (·.event)
  duplicates : batch.duplicatesDropped + batch.rows.length = batch.acks.length
  bytes : batch.bufferedBytes = payload (kept policy es)
  /-- A batch that `flush` passes over has no handle. -/
  isEmpty : batch.isEmpty = true ↔ batch.acks = []

section
variable {acc : Accumulator} {es : List Envelope} {envelope : Envelope} {seen now : Instant}

theorem holds_new (policy : BatchConfig) : Holds (.new policy) [] where
  acks := rfl
  rows := by simp [Accumulator.new]
  seenKeys _ := rfl
  duplicates := rfl
  bytes := by simp [Accumulator.new, payload]
  rows_nil := by simp [Accumulator.new]
  firstSeen := by simp [Accumulator.new]

/-- The keys of the buffered rows are those of the pushed envelopes. -/
theorem Holds.mem_keys (h : Holds acc es) {k : Key} :
    k ∈ acc.rows.map TradeEvent.key ↔ k ∈ es.map (·.event.key) := by
  rw [h.rows, List.map_map]
  exact mem_keys_kept

/-- A push is a duplicate when an envelope of its key is held. -/
theorem Holds.seen_iff (h : Holds acc es) :
    (acc.policy.dedup = true ∧ envelope.event.key ∈ acc.seenKeys) ↔
      (acc.policy.dedup = true ∧ envelope.event.key ∈ es.map (·.event.key)) := by
  refine and_congr_right fun hd => ?_
  rw [acc.seen hd, List.mem_toFinset, h.mem_keys]

/-- A dropped duplicate: only the handle and the count are new. -/
theorem Holds.drop (h : Holds acc es)
    (hd : acc.policy.dedup = true ∧ envelope.event.key ∈ acc.seenKeys) :
    Holds (acc.drop envelope) (es ++ [envelope]) := by
  have hk : kept (acc.drop envelope).policy (es ++ [envelope]) = kept acc.policy es := by
    show kept acc.policy _ = _
    rw [kept_concat, if_pos (h.seen_iff.1 hd), List.append_nil]
  have hne : acc.rows ≠ [] := by
    intro hr
    have := (acc.seen hd.1) ▸ hd.2
    simp [hr] at this
  refine ⟨?_, ?_, h.seenKeys, ?_, ?_, ?_, h.firstSeen⟩
  · show acc.acks ++ [envelope.ack] = _
    rw [h.acks, List.map_append]
    rfl
  · rw [hk]
    exact h.rows
  · have := h.duplicates
    show acc.duplicates + 1 + acc.rows.length = (acc.acks ++ [envelope.ack]).length
    rw [List.length_append, List.length_singleton]
    omega
  · rw [hk]
    exact h.bytes
  · show acc.rows = [] ↔ acc.acks ++ [envelope.ack] = []
    simp [hne]

/-- An accepted row. -/
theorem Holds.accept (h : Holds acc es)
    (hd : acc.policy.dedup = true → envelope.event.key ∉ acc.seenKeys) :
    Holds (acc.accept envelope seen hd) (es ++ [envelope]) := by
  have hk : kept (acc.accept envelope seen hd).policy (es ++ [envelope]) =
      kept acc.policy es ++ [envelope] := by
    show kept acc.policy _ = _
    rw [kept_concat, if_neg fun hx => hd hx.1 (h.seen_iff.2 hx).2]
  refine ⟨?_, ?_, fun hx => Accumulator.seen _ hx, ?_, ?_, ?_, ?_⟩
  · show acc.acks ++ [envelope.ack] = _
    rw [h.acks, List.map_append]
    rfl
  · show acc.rows ++ [envelope.event] = _
    rw [hk, h.rows, List.map_append]
    rfl
  · have := h.duplicates
    show acc.duplicates + (acc.rows ++ [envelope.event]).length =
      (acc.acks ++ [envelope.ack]).length
    simp only [List.length_append, List.length_singleton]
    omega
  · show acc.bytes + max envelope.bytes 1 = _
    rw [hk, h.bytes, payload_append]
    rfl
  · show acc.rows ++ [envelope.event] = [] ↔ acc.acks ++ [envelope.ack] = []
    simp
  · show acc.rows ++ [envelope.event] = [] ↔
      (if acc.rows.isEmpty then some seen else acc.firstSeen) = none
    have := h.firstSeen
    cases hr : acc.rows with
    | nil => simp
    | cons e rows =>
      rw [hr] at this
      simpa using this

/-- **A push adds its envelope** to those the accumulator holds. -/
theorem Holds.push (h : Holds acc es) :
    Holds (acc.push envelope seen now).2 (es ++ [envelope]) := by
  unfold Accumulator.push
  split
  · rename_i hd
    exact h.drop hd
  · rename_i hd
    exact h.accept fun hx hk => hd ⟨hx, hk⟩

theorem Holds.take (h : Holds acc es) (trigger : FlushTrigger) :
    Taken acc.policy es (acc.take trigger).1 where
  acks := h.acks
  rows := h.rows
  duplicates := h.duplicates
  bytes := h.bytes
  isEmpty := by
    show acc.rows.isEmpty = true ↔ acc.acks = []
    rw [List.isEmpty_iff]
    exact h.rows_nil

/-- **A taken accumulator is a new one.** -/
@[simp] theorem take_eq_new (trigger : FlushTrigger) :
    (acc.take trigger).2 = .new acc.policy := rfl

end

/-! ## Sequences of calls -/

theorem calls_spec {acc : Accumulator} {held : List Envelope} (h : Holds acc held)
    (cs : List Call) :
    List.Forall₂ (Taken acc.policy) (epochsFrom held cs).1 (acc.calls cs).1 ∧
    Holds (acc.calls cs).2 (epochsFrom held cs).2 ∧
    (acc.calls cs).2.policy = acc.policy := by
  induction cs generalizing acc held with
  | nil => exact ⟨.nil, h, rfl⟩
  | cons c cs ih =>
    cases c with
    | push envelope seen now =>
      have hp : Holds (acc.push envelope seen now).2 (held ++ [envelope]) := h.push
      have := ih hp
      rwa [Accumulator.push_policy] at this
    | take trigger =>
      obtain ⟨hb, hh, hp⟩ := ih (holds_new acc.policy)
      exact ⟨.cons (h.take trigger) hb, hh, hp⟩

/-- The handles of batches with their envelopes. -/
theorem acks_of_taken {policy : BatchConfig} {epochs : List (List Envelope)}
    {batches : List MicroBatch} (h : List.Forall₂ (Taken policy) epochs batches) :
    batches.flatMap (·.acks) = epochs.flatten.map (·.ack) := by
  induction h with
  | nil => rfl
  | cons hb _ ih => rw [List.flatMap_cons, ih, hb.acks, List.flatten_cons, List.map_append]

/-- **Conservation**: after any calls the handles of the taken batches and the buffered ones are
those pushed, in order; each batch holds what was pushed since the one before it, and the
accumulator what was pushed since the last; a taken accumulator is a new one. -/
theorem accumulator_conservation (policy : BatchConfig) (cs : List Call) :
    let (batches, acc) := (Accumulator.new policy).calls cs
    (batches.flatMap (·.acks) ++ acc.acks = (pushed cs).map (·.ack)) ∧
    List.Forall₂ (Taken policy) (epochs cs).1 batches ∧
    acc.policy = policy ∧ Holds acc (epochs cs).2 ∧
    ∀ trigger, (acc.take trigger).2 = .new policy := by
  obtain ⟨hb, hh, hp⟩ := calls_spec (holds_new policy) cs
  refine ⟨?_, hb, hp, hh, fun trigger => ?_⟩
  · rw [acks_of_taken hb, hh.acks, ← List.map_append, epochsFrom_flatten]
    rfl
  · rw [take_eq_new, hp]
    rfl

end Batcher
