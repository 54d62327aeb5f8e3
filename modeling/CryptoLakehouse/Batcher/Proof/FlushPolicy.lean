import CryptoLakehouse.Batcher.Proof.AckSafety
import CryptoLakehouse.Batcher.Proof.SizePolicy

/-!
# The flush policy

When a micro-batch is complete, said of what is buffered: `Logged` ties an accumulator to the
envelopes of its rows and the times of their pushes. `Timed` is the pipeline with a clock that does
not go back, and with that log.

* `triggerNow_iff` — a batch is due when a threshold is reached or its oldest row is old enough, and
  the trigger is the first that holds.
* `Timed.Inv` — between two turns of the loop the buffered rows are below both thresholds.
* `flush_policy_exact` — so what a push decides, and the trigger read after it, are as the policy
  says, and every flushed batch is of the size its trigger says.
-/

namespace Batcher

open Trades Sink Machine

/-! ## What is buffered -/

/-- A buffered row: its envelope, and when it was pushed. -/
abbrev Entry := Envelope × Instant

/-- The accumulator's rows, bytes and `first_seen` are those of the entries. -/
structure Logged (acc : Accumulator) (log : List Entry) : Prop where
  rows : acc.rows = log.map (·.1.event)
  bytes : acc.bytes = payload (log.map (·.1))
  firstSeen : acc.firstSeen = log.head?.map (·.2)

/-- The entries after a push: a duplicate of a buffered row is not one of them. -/
def pushEntry (policy : BatchConfig) (log : List Entry) (envelope : Envelope) (seen : Instant) :
    List Entry :=
  if policy.dedup = true ∧ ∃ e ∈ log, e.1.event.key = envelope.event.key then log
  else log ++ [(envelope, seen)]

def CountHolds (policy : BatchConfig) (log : List Entry) : Prop := policy.maxRecords ≤ log.length

def BytesHolds (policy : BatchConfig) (log : List Entry) : Prop :=
  policy.maxBytes ≤ payload (log.map (·.1))

/-- The oldest row was pushed at least `flush_interval` ago. -/
def AgeHolds (policy : BatchConfig) (log : List Entry) (now : Instant) : Prop :=
  ∃ oldest, log.head? = some oldest ∧ oldest.2 + policy.flushInterval ≤ now

/-- The batch should be flushed. -/
def Due (policy : BatchConfig) (log : List Entry) (now : Instant) : Prop :=
  log ≠ [] ∧ (CountHolds policy log ∨ BytesHolds policy log ∨ AgeHolds policy log now)

instance instDecidableCountHolds (policy : BatchConfig) (log : List Entry) :
    Decidable (CountHolds policy log) := inferInstanceAs (Decidable (_ ≤ _))

instance instDecidableBytesHolds (policy : BatchConfig) (log : List Entry) :
    Decidable (BytesHolds policy log) := inferInstanceAs (Decidable (_ ≤ _))

/-- The trigger of highest priority of a batch that is due. -/
def highest (policy : BatchConfig) (log : List Entry) : FlushTrigger :=
  if CountHolds policy log then .count else if BytesHolds policy log then .bytes else .interval

section
variable {acc : Accumulator} {log : List Entry} {envelope : Envelope} {seen now later : Instant}
  {policy : BatchConfig} {t : FlushTrigger}

theorem logged_new (policy : BatchConfig) : Logged (.new policy) [] := ⟨rfl, rfl, rfl⟩

theorem Logged.rows_nil (h : Logged acc log) : acc.rows = [] ↔ log = [] := by
  rw [h.rows, List.map_eq_nil_iff]

theorem Logged.length (h : Logged acc log) : acc.rows.length = log.length := by
  rw [h.rows, List.length_map]

/-- **A push** adds its entry, unless it is a duplicate. -/
theorem Logged.push (h : Logged acc log) (envelope : Envelope) (seen now : Instant) :
    Logged (acc.push envelope seen now).2 (pushEntry acc.policy log envelope seen) := by
  have hdup : (acc.policy.dedup = true ∧ envelope.event.key ∈ acc.seenKeys) ↔
      (acc.policy.dedup = true ∧ ∃ e ∈ log, e.1.event.key = envelope.event.key) := by
    refine and_congr_right fun hd => ?_
    rw [acc.seen hd, h.rows, List.mem_toFinset, List.map_map, List.mem_map]
    exact Iff.rfl
  unfold Accumulator.push pushEntry
  by_cases hk : acc.policy.dedup = true ∧ envelope.event.key ∈ acc.seenKeys
  · rw [dif_pos hk, if_pos (hdup.1 hk)]
    exact ⟨h.rows, h.bytes, h.firstSeen⟩
  · rw [dif_neg hk, if_neg fun hx => hk (hdup.2 hx)]
    refine ⟨?_, ?_, ?_⟩
    · show acc.rows ++ [envelope.event] = _
      rw [h.rows, List.map_append]
      rfl
    · show acc.bytes + max envelope.bytes 1 = _
      rw [h.bytes, List.map_append, payload_append]
      rfl
    · show (if acc.rows.isEmpty then some seen else acc.firstSeen) = _
      rw [h.rows, h.firstSeen]
      cases log <;> rfl

/-! ## When a batch is due -/

theorem no_time_left_iff {interval t now : Nat} (h : t ≤ now) :
    interval - (now - t) = 0 ↔ t + interval ≤ now := by omega

/-- The age trigger, on a clock that has not gone back. -/
theorem Logged.ageExceeded_iff (h : Logged acc log) (hpast : ∀ e ∈ log, e.2 ≤ now) :
    acc.ageExceeded now = true ↔ AgeHolds acc.policy log now := by
  unfold Accumulator.ageExceeded Accumulator.timeToFlush AgeHolds
  rw [h.firstSeen]
  cases log with
  | nil => simp
  | cons e rest =>
    have hle : e.2 ≤ now := hpast e List.mem_cons_self
    show (acc.policy.flushInterval - (now - e.2) == 0) = true ↔ _
    rw [beq_iff_eq, no_time_left_iff hle]
    refine ⟨fun h0 => ?_, fun hx => ?_⟩
    · exact ⟨e, rfl, h0⟩
    · obtain ⟨oldest, ho, hage⟩ := hx
      cases ho
      exact hage

/-- **The trigger**: a batch has one when it is due, the first in the order count, bytes, age. -/
theorem Logged.triggerNow_iff (h : Logged acc log) (hpast : ∀ e ∈ log, e.2 ≤ now) :
    acc.triggerNow now = some t ↔ Due acc.policy log now ∧ t = highest acc.policy log := by
  have hcount : (acc.policy.maxRecords ≤ acc.rows.length) ↔ CountHolds acc.policy log := by
    rw [h.length]
    rfl
  have hbytes : (acc.policy.maxBytes ≤ acc.bytes) ↔ BytesHolds acc.policy log := by
    rw [h.bytes]
    rfl
  have hage := h.ageExceeded_iff hpast
  have hnil : acc.isEmpty = true ↔ log = [] := by
    rw [Accumulator.isEmpty, List.isEmpty_iff]
    exact h.rows_nil
  have hcomm : ∀ {a : FlushTrigger}, some a = some t ↔ t = a := fun {a} => by
    rw [Option.some.injEq]
    exact eq_comm
  unfold Accumulator.triggerNow Due highest
  by_cases h0 : log = []
  · rw [if_pos (hnil.2 h0)]
    simp [h0]
  rw [if_neg fun hx => h0 (hnil.1 hx)]
  by_cases h1 : CountHolds acc.policy log
  · rw [if_pos (hcount.2 h1), if_pos h1, hcomm]
    simp [h0, h1]
  rw [if_neg fun hx => h1 (hcount.1 hx), if_neg h1]
  by_cases h2 : BytesHolds acc.policy log
  · rw [if_pos (hbytes.2 h2), if_pos h2, hcomm]
    simp [h0, h2]
  rw [if_neg fun hx => h2 (hbytes.1 hx), if_neg h2]
  by_cases h3 : AgeHolds acc.policy log now
  · rw [if_pos (hage.2 h3), hcomm]
    simp [h0, h3]
  · rw [if_neg fun hx => h3 (hage.1 hx)]
    simp [h1, h2, h3]

theorem Logged.due_iff (h : Logged acc log) (hpast : ∀ e ∈ log, e.2 ≤ now) :
    acc.due now = true ↔ Due acc.policy log now := by
  rw [Accumulator.due, Option.isSome_iff_exists]
  simp only [h.triggerNow_iff hpast, exists_and_left, exists_eq, and_true]

/-- **A batch that is due stays due.** -/
theorem Due.mono (h : Due policy log now) (hle : now ≤ later) : Due policy log later := by
  obtain ⟨hne, hor⟩ := h
  refine ⟨hne, ?_⟩
  rcases hor with hc | hb | ⟨oldest, ho, hage⟩
  · exact .inl hc
  · exact .inr (.inl hb)
  · exact .inr (.inr ⟨oldest, ho, le_trans hage hle⟩)

end

/-! ## The pipeline with a clock -/

/-- The readings of the clock in a step, in order. -/
def Action.readings : Action → List Instant
  | .recv seen now flushNow => [seen, now, flushNow]
  | .due now => [now]
  | _ => []

structure Timed where
  state : State
  /-- The last reading of the clock. -/
  clock : Instant
  /-- The entries of the buffered rows. -/
  buffered : List Entry
  /-- The entries of the batch that was taken last. -/
  taken : List Entry

namespace Timed

def start (cfg : Config) (lake : Lake) : Timed := ⟨.start cfg lake, 0, [], []⟩

/-- The entries after a push. -/
def pushed (s : Timed) (envelope : Envelope) (seen : Instant) : List Entry :=
  pushEntry s.state.acc.policy s.buffered envelope seen

/-- The clock and the entries after a step to `s'`. A new process has a clock of its own. -/
def after (s : Timed) (s' : State) : Action → Timed
  | .recv seen _ flushNow =>
    match s.state.channel with
    | envelope :: _ =>
      if s'.acc.isEmpty then ⟨s', flushNow, [], s.pushed envelope seen⟩
      else ⟨s', flushNow, s.pushed envelope seen, s.taken⟩
    | [] => { s with state := s' }
  | .due now => ⟨s', now, [], s.buffered⟩
  | .stop => ⟨s', s.clock, [], s.buffered⟩
  | .crash => ⟨s', 0, [], []⟩
  | _ => { s with state := s' }

/-- A step of the pipeline at readings of the clock that do not go back. -/
def step (cfg : Config) (decode : List UInt8 → Option TradeEvent) (stream : Nat → List UInt8)
    (s : Timed) (a : Action) : Option Timed :=
  if (s.clock :: a.readings).Pairwise (· ≤ ·) then
    (Batcher.step cfg decode stream s.state a).map fun s' => s.after s' a
  else none

end Timed

/-- A flushed batch and its entries: the size its trigger says. -/
structure Sized (policy : BatchConfig) (batch : MicroBatch) (taken : List Entry) : Prop where
  rows : batch.rows = taken.map (·.1.event)
  most : batch.rows.length ≤ max 1 policy.maxRecords
  count : batch.trigger = .count → batch.rows.length = max 1 policy.maxRecords
  bytes : batch.trigger = .bytes → policy.maxBytes ≤ payload (taken.map (·.1)) ∧
    (2 ≤ batch.rows.length → payload (taken.dropLast.map (·.1)) < policy.maxBytes)

/-- The policy in one state of the pipeline, for any row that may be pushed next. -/
structure FlushPolicy (policy : BatchConfig) (s : Timed) : Prop where
  pushed : ∀ envelope seen now,
    Logged (s.state.acc.push envelope seen now).2 (s.pushed envelope seen)
  push : ∀ envelope seen now, s.clock ≤ seen → seen ≤ now →
    ((s.state.acc.push envelope seen now).1 = true ↔ Due policy (s.pushed envelope seen) now)
  trigger : ∀ envelope seen now later, s.clock ≤ seen → seen ≤ now → now ≤ later →
    (s.state.acc.push envelope seen now).1 = true →
    (s.state.acc.push envelope seen now).2.triggerNow later =
      some (highest policy (s.pushed envelope seen))
  dropped : ∀ envelope seen now, s.clock ≤ seen → seen ≤ now →
    s.pushed envelope seen = s.buffered → (s.state.acc.push envelope seen now).1 = true →
    AgeHolds policy s.buffered now ∧ highest policy s.buffered = .interval
  batch : ∀ b, s.state.phase = .flushing b → Sized policy b s.taken

/-- What holds between two turns of the loop. -/
structure Timed.Inv (policy : BatchConfig) (s : Timed) : Prop where
  policy_eq : s.state.acc.policy = policy
  logged : Logged s.state.acc s.buffered
  past : ∀ e ∈ s.buffered, e.2 ≤ s.clock
  /-- The loop flushes as soon as a push says so. -/
  below : s.buffered ≠ [] → ¬CountHolds policy s.buffered ∧ ¬BytesHolds policy s.buffered
  batch : ∀ b, s.state.phase = .flushing b → Sized policy b s.taken

section
variable {cfg : Config} {decode : List UInt8 → Option TradeEvent} {stream : Nat → List UInt8}
  {policy : BatchConfig} {s s' : Timed} {t : State} {a : Action} {envelope : Envelope}
  {seen now later : Instant} {log : List Entry} {lake : Lake}

/-! ### A push -/

/-- A push adds its entry, or drops a duplicate of a buffered row. -/
theorem Timed.pushed_cases (s : Timed) (envelope : Envelope) (seen : Instant) :
    s.pushed envelope seen = s.buffered ++ [(envelope, seen)] ∨
      s.pushed envelope seen = s.buffered ∧ s.buffered ≠ [] := by
  unfold Timed.pushed pushEntry
  split
  · rename_i hk
    obtain ⟨-, e, he, -⟩ := hk
    exact .inr ⟨rfl, List.ne_nil_of_mem he⟩
  · exact .inl rfl

theorem Timed.pushed_ne_nil (s : Timed) (envelope : Envelope) (seen : Instant) :
    s.pushed envelope seen ≠ [] := by
  rcases s.pushed_cases envelope seen with he | ⟨he, hne⟩
  · simp [he]
  · exact he ▸ hne

theorem Timed.Inv.past_pushed (h : s.Inv policy) (hseen : s.clock ≤ seen) (hnow : seen ≤ now) :
    ∀ e ∈ s.pushed envelope seen, e.2 ≤ now := by
  intro e he
  have hold : ∀ e ∈ s.buffered, e.2 ≤ now := fun e he => (h.past e he).trans (hseen.trans hnow)
  rcases s.pushed_cases envelope seen with hp | ⟨hp, -⟩
  · rw [hp] at he
    rcases List.mem_append.1 he with he | he
    · exact hold e he
    · rw [List.mem_singleton.1 he]
      exact hnow
  · exact hold e (hp ▸ he)

/-- The batch of a push that fills it is of the size its trigger says. -/
theorem Timed.Inv.sized_pushed (h : s.Inv policy) {batch : MicroBatch}
    (hrows : batch.rows = (s.pushed envelope seen).map (·.1.event))
    (ht : batch.trigger = highest policy (s.pushed envelope seen)) :
    Sized policy batch (s.pushed envelope seen) := by
  have hlen : batch.rows.length = (s.pushed envelope seen).length := by
    rw [hrows, List.length_map]
  have hc : batch.trigger = .count → CountHolds policy (s.pushed envelope seen) := by
    intro hx
    rw [ht, highest] at hx
    split at hx
    · assumption
    · split at hx <;> cases hx
  have hb : batch.trigger = .bytes → BytesHolds policy (s.pushed envelope seen) := by
    intro hx
    rw [ht, highest] at hx
    split at hx
    · cases hx
    · split at hx
      · assumption
      · cases hx
  rcases s.pushed_cases envelope seen with hp | ⟨hp, hne⟩
  · by_cases hnil : s.buffered = []
    · -- The first row of a batch.
      have hone : batch.rows.length = 1 := by rw [hlen, hp, hnil]; rfl
      refine ⟨hrows, by omega, fun hx => ?_, fun hx => ⟨hb hx, fun h2 => by omega⟩⟩
      have := hc hx
      unfold CountHolds at this
      omega
    · obtain ⟨h1, h2⟩ := h.below hnil
      unfold CountHolds at h1
      have hsucc : batch.rows.length = s.buffered.length + 1 := by
        rw [hlen, hp, List.length_append]
        rfl
      refine ⟨hrows, by omega, fun hx => ?_, fun hx => ⟨hb hx, fun _ => ?_⟩⟩
      · have := hc hx
        unfold CountHolds at this
        omega
      · rw [hp, List.dropLast_concat]
        exact Nat.lt_of_not_le h2
  · obtain ⟨h1, h2⟩ := h.below hne
    refine ⟨hrows, ?_, fun hx => absurd (hp ▸ hc hx) h1, fun hx => absurd (hp ▸ hb hx) h2⟩
    rw [hlen, hp]
    unfold CountHolds at h1
    omega

/-- The policy in a state between two turns. -/
theorem Timed.Inv.flushPolicy (h : s.Inv policy) : FlushPolicy policy s := by
  have hpol : ∀ envelope seen now, (s.state.acc.push envelope seen now).2.policy = policy :=
    fun envelope seen now => by rw [Accumulator.push_policy, h.policy_eq]
  have hdue : ∀ envelope seen now, s.clock ≤ seen → seen ≤ now →
      ((s.state.acc.push envelope seen now).1 = true ↔
        Due policy (s.pushed envelope seen) now) := by
    intro envelope seen now hseen hnow
    have hlog := h.logged.push envelope seen now
    rw [Caller.push_fst, hlog.due_iff (h.past_pushed hseen hnow), hpol]
    rfl
  refine ⟨h.logged.push, hdue, ?_, ?_, h.batch⟩
  · intro envelope seen now later hseen hnow hlater hfull
    have hlog := h.logged.push envelope seen now
    have hpast : ∀ e ∈ s.pushed envelope seen, e.2 ≤ later :=
      h.past_pushed hseen (hnow.trans hlater)
    refine (hlog.triggerNow_iff hpast).2 ⟨?_, by rw [hpol]; rfl⟩
    rw [hpol]
    exact ((hdue envelope seen now hseen hnow).1 hfull).mono hlater
  · intro envelope seen now hseen hnow hp hfull
    obtain ⟨hne, hor⟩ := (hdue envelope seen now hseen hnow).1 hfull
    rw [hp] at hne hor
    obtain ⟨h1, h2⟩ := h.below hne
    refine ⟨(hor.resolve_left h1).resolve_left h2, ?_⟩
    rw [highest, if_neg h1, if_neg h2]

/-! ### A step -/

theorem flush_isEmpty (t : State) (trigger : FlushTrigger) :
    (t.flush trigger).acc.isEmpty = true := by
  rw [flush_acc]
  rfl

/-- A flush of nothing, or of a batch whose size its trigger says. -/
theorem inv_flush (hpol : t.acc.policy = policy) (hlog : Logged t.acc log) (trigger : FlushTrigger)
    (hsize : ∀ batch : MicroBatch, batch.rows = log.map (·.1.event) → batch.trigger = trigger →
      Sized policy batch log) (clock : Instant) :
    Timed.Inv policy ⟨t.flush trigger, clock, [], log⟩ := by
  refine ⟨?_, ?_, fun _ he => absurd he List.not_mem_nil, fun hne => absurd rfl hne, ?_⟩
  · rw [flush_acc]
    exact hpol
  · rw [flush_acc]
    exact ⟨rfl, rfl, rfl⟩
  · intro b hb
    obtain ⟨rfl, -⟩ := flush_flushing hb
    exact hsize _ hlog.rows rfl

/-- What the age trigger or a shutdown flushes is below the limit. -/
theorem Timed.Inv.sized_buffered (h : s.Inv policy) {batch : MicroBatch}
    (hrows : batch.rows = s.buffered.map (·.1.event)) (hc : batch.trigger ≠ .count)
    (hb : batch.trigger ≠ .bytes) : Sized policy batch s.buffered := by
  refine ⟨hrows, ?_, fun hx => absurd hx hc, fun hx => absurd hx hb⟩
  rw [hrows, List.length_map]
  by_cases hnil : s.buffered = []
  · simp [hnil]
  · have := (h.below hnil).1
    unfold CountHolds at this
    omega

/-- A step that leaves the accumulator alone and takes no batch. -/
theorem Timed.Inv.frame (h : s.Inv policy) (hacc : t.acc = s.state.acc)
    (hp : ∀ b, t.phase = .flushing b → s.state.phase = .flushing b) :
    Timed.Inv policy { s with state := t } :=
  ⟨hacc ▸ h.policy_eq, hacc ▸ h.logged, h.past, h.below, fun b hb => h.batch b (hp b hb)⟩

/-- **A row**: the push decides, and a full batch is flushed. -/
theorem Timed.Inv.recv (h : s.Inv policy) {flushNow : Instant} (hseen : s.clock ≤ seen)
    (hnow : seen ≤ now) (hflush : now ≤ flushNow)
    (hs : Batcher.step cfg decode stream s.state (.recv seen now flushNow) = some t) :
    (s.after t (.recv seen now flushNow)).Inv policy := by
  simp only [Batcher.step] at hs
  split at hs
  · rename_i envelope channel hp hc
    have hpolicy := h.flushPolicy
    have hlog := hpolicy.pushed envelope seen now
    have hpol : (s.state.acc.push envelope seen now).2.policy = policy := by
      rw [Accumulator.push_policy, h.policy_eq]
    have hne := s.pushed_ne_nil envelope seen
    rw [Option.some.injEq] at hs
    by_cases hfull : (s.state.acc.push envelope seen now).1 = true
    · -- The trigger that is read again is the one the push has seen.
      rw [if_pos hfull, hpolicy.trigger envelope seen now flushNow hseen hnow hflush hfull,
        Option.getD_some] at hs
      subst hs
      simp only [Timed.after, hc]
      rw [if_pos (flush_isEmpty _ _)]
      exact inv_flush hpol hlog _ (fun batch hr ht => h.sized_pushed hr ht) flushNow
    · rw [if_neg hfull] at hs
      subst hs
      have hnot : ¬(s.state.acc.push envelope seen now).2.isEmpty = true := by
        rw [Accumulator.isEmpty, List.isEmpty_iff, hlog.rows_nil]
        exact hne
      have hdue := mt (hpolicy.push envelope seen now hseen hnow).2 hfull
      simp only [Timed.after, hc]
      rw [if_neg hnot]
      refine ⟨hpol, hlog, fun e he => ?_, fun _ => ?_, fun b hb => ?_⟩
      · exact (h.past_pushed hseen hnow e he).trans hflush
      · exact ⟨fun hx => hdue ⟨hne, .inl hx⟩, fun hx => hdue ⟨hne, .inr (.inl hx)⟩⟩
      · dsimp only at hb
        rw [hp] at hb
        cases hb
  · cases hs

theorem Timed.Inv.step (h : s.Inv cfg.policy) (hs : s.step cfg decode stream a = some s') :
    s'.Inv cfg.policy := by
  unfold Timed.step at hs
  split at hs
  · rename_i hclock
    obtain ⟨t, ht, rfl⟩ := Option.map_eq_some_iff.1 hs
    cases a with
    | deliver seq reply =>
      simp only [Batcher.step] at ht
      split at ht
      · cases ht
        exact h.frame (upstream_deliver _ _).acc fun b hb => (upstream_deliver _ _).phase ▸ hb
      · cases ht
    | recv seen now flushNow =>
      simp only [Action.readings, List.pairwise_cons, List.mem_cons] at hclock
      exact h.recv (hclock.1 seen (.inl rfl)) (hclock.2.1 now (.inl rfl))
        (hclock.2.2.1 flushNow (.inl rfl)) ht
    | due now =>
      simp only [Batcher.step] at ht
      split at ht
      · split at ht
        · cases ht
          exact inv_flush h.policy_eq h.logged _ (fun batch hr hi =>
            h.sized_buffered hr (by simp [hi]) (by simp [hi])) now
        · cases ht
      · cases ht
    | stop =>
      simp only [Batcher.step] at ht
      split at ht
      · cases ht
        exact inv_flush h.policy_eq h.logged _ (fun batch hr hi =>
          h.sized_buffered hr (by simp [hi]) (by simp [hi])) s.clock
      · cases ht
    | write ops =>
      simp only [Batcher.step] at ht
      split at ht
      · cases ht
        exact h.frame written_acc fun b hb => absurd hb written_ne_flushing
      · cases ht
    | ack i reply =>
      simp only [Batcher.step] at ht
      split at ht
      · split at ht
        · obtain ⟨ack, -, rfl⟩ := Option.map_eq_some_iff.1 ht
          exact h.frame (acking_acc.trans (upstream_invoke _ _).acc) fun b hb =>
            absurd hb acking_ne_flushing
        · cases ht
      · cases ht
    | crash =>
      cases ht
      exact ⟨rfl, logged_new _, fun _ he => absurd he List.not_mem_nil,
        fun hne => absurd rfl hne, fun _ hb => by cases hb⟩
    | foreign files =>
      simp only [Batcher.step] at ht
      split at ht
      · cases ht
        exact h.frame rfl fun b hb => hb
      · cases ht
  · cases hs

theorem inv_start (cfg : Config) (lake : Lake) : (Timed.start cfg lake).Inv cfg.policy :=
  ⟨rfl, logged_new _, fun _ he => absurd he List.not_mem_nil, fun hne => absurd rfl hne,
    fun _ hb => by cases hb⟩

/-- **The flush policy is exact**: it holds in every state of every run whose clock does not go
back. -/
theorem flush_policy_exact (cfg : Config) (decode : List UInt8 → Option TradeEvent)
    (stream : Nat → List UInt8) (lake : Lake) (as : List Action) :
    Always (Timed.step cfg decode stream) (FlushPolicy cfg.policy) (Timed.start cfg lake) as :=
  always_of_inv (fun _ _ _ => Timed.Inv.step) (fun _ => Timed.Inv.flushPolicy) (inv_start cfg lake)
    as

end

end Batcher
