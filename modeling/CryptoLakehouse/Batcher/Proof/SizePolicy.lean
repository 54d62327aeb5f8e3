import CryptoLakehouse.Batcher.Proof.Conservation
import CryptoLakehouse.Lib.Machine

/-!
# The size policy and the held envelopes

The thresholds of `trigger_now` are tested on the buffered rows and their bytes. What the batcher
retains is the handles, of duplicates too: each `nats` handle owns its message. `Within` bounds the
held envelopes by the size policy; with dedup on it is lost as soon as the duplicates fill up what
the rows leave of a threshold (`Room`).

* `Caller.Inv` — a batch that is not due is below both thresholds, in rows and in their bytes.
* `within_step_iff` — a call stays within the policy when it finds room.
* `held_within_size_policy_of_no_dedup`, `held_within_size_policy_of_small` — policies under which
  every call does: without dedup, or when the first row closes its batch.
* `held_within_size_policy_of_unrepeated` — under any policy, the runs in which no key comes again
  before the batch is taken.
* `held_within_size_policy_iff` — no other policy does without that: one message, delivered again
  and again, exceeds it.
-/

namespace Batcher

open Machine

/-- An accumulator whose caller takes the batch as soon as a push says so. -/
structure Caller where
  acc : Accumulator
  /-- The envelopes pushed since the last `take`. -/
  held : List Envelope
  /-- The last push returned `true`, and its batch is not taken yet. -/
  due : Bool

namespace Caller

def start (policy : BatchConfig) : Caller := ⟨.new policy, [], false⟩

/-- One call. The batch may be taken at any time, and must be before the next push when it is
due. -/
def step (s : Caller) : Call → Option Caller
  | .push envelope seen now =>
    if s.due then none
    else
      let (due, acc) := s.acc.push envelope seen now
      some ⟨acc, s.held ++ [envelope], due⟩
  | .take trigger => some ⟨(s.acc.take trigger).2, [], false⟩

/-- The held envelopes are within the size policy. -/
def Within (s : Caller) : Prop :=
  s.acc.acks.length ≤ max 1 s.acc.policy.maxRecords ∧
  payload s.held.dropLast < max 1 s.acc.policy.maxBytes

instance instDecidableWithin (s : Caller) : Decidable s.Within := inferInstanceAs (Decidable (_ ∧ _))

/-- A push finds room: no duplicate is held, or the duplicates with the rows are below the
thresholds as well. -/
def Room (s : Caller) : Call → Prop
  | .push _ _ _ => s.due = true ∨ s.acc.duplicates = 0 ∨
      s.acc.rows.length + s.acc.duplicates < max 1 s.acc.policy.maxRecords ∧
      payload s.held < max 1 s.acc.policy.maxBytes
  | .take _ => True

/-- What holds between calls. -/
structure Inv (policy : BatchConfig) (s : Caller) : Prop where
  policy_eq : s.acc.policy = policy
  holds : Holds s.acc s.held
  /-- A batch that is not due is below the thresholds. -/
  below : s.due = false → s.acc.rows ≠ [] →
    s.acc.rows.length < policy.maxRecords ∧ s.acc.bytes < policy.maxBytes

variable {policy : BatchConfig} {s s' : Caller} {c : Call}

theorem inv_start : (start policy).Inv policy :=
  ⟨rfl, holds_new policy, fun _ h => absurd rfl h⟩

theorem within_start : (start policy).Within := by
  refine ⟨Nat.zero_le _, ?_⟩
  show 0 < max 1 policy.maxBytes
  omega

/-- A batch that no trigger closes is below the thresholds. -/
theorem below_of_not_due {acc : Accumulator} {now : Instant} (h : acc.due now = false)
    (hr : acc.rows ≠ []) :
    acc.rows.length < acc.policy.maxRecords ∧ acc.bytes < acc.policy.maxBytes := by
  have he : ¬acc.isEmpty = true := by simpa [Accumulator.isEmpty] using hr
  unfold Accumulator.due Accumulator.triggerNow at h
  rw [if_neg he] at h
  split at h
  · cases h
  · split at h
    · cases h
    · omega

theorem push_fst (acc : Accumulator) (envelope : Envelope) (seen now : Instant) :
    (acc.push envelope seen now).1 = (acc.push envelope seen now).2.due now := by
  unfold Accumulator.push
  split <;> rfl

theorem Inv.step (h : s.Inv policy) (hs : s.step c = some s') : s'.Inv policy := by
  cases c with
  | push envelope seen now =>
    simp only [Caller.step] at hs
    split at hs
    · cases hs
    · cases hs
      have hp : (s.acc.push envelope seen now).2.policy = policy := by
        rw [Accumulator.push_policy, h.policy_eq]
      refine ⟨hp, h.holds.push, fun hd hr => ?_⟩
      rw [push_fst] at hd
      rw [← hp]
      exact below_of_not_due hd hr
  | take trigger =>
    cases hs
    refine ⟨h.policy_eq, ?_, fun _ hr => absurd rfl hr⟩
    exact holds_new s.acc.policy

/-- Without a duplicate every held envelope is kept. -/
theorem kept_of_no_duplicates (h : Holds s.acc s.held) (hd : s.acc.duplicates = 0) :
    kept s.acc.policy s.held = s.held := by
  refine kept_sublist.eq_of_length ?_
  have h1 : (kept s.acc.policy s.held).length = s.acc.rows.length := by rw [h.rows, List.length_map]
  have h2 : s.held.length = s.acc.acks.length := by rw [h.acks, List.length_map]
  have h3 := h.duplicates
  omega

theorem room_of_no_duplicates (h : s.acc.duplicates = 0) : s.Room c := by
  cases c with
  | push envelope seen now => exact .inr (.inl h)
  | take trigger => trivial

/-- Nothing is dropped when every row is kept. -/
theorem duplicates_of_kept (h : Holds s.acc s.held) (hk : kept s.acc.policy s.held = s.held) :
    s.acc.duplicates = 0 := by
  have hrows : s.acc.rows.length = s.held.length := by rw [h.rows, List.length_map, hk]
  have hacks : s.acc.acks.length = s.held.length := by rw [h.acks, List.length_map]
  have := h.duplicates
  omega

theorem duplicates_of_no_dedup (h : s.Inv policy) (hd : policy.dedup = false) :
    s.acc.duplicates = 0 := by
  refine duplicates_of_kept h.holds ?_
  unfold kept
  rw [h.policy_eq, hd]
  rfl

/-- What a push finds room for: the held envelopes are below both thresholds. -/
theorem room_iff (h : s.Inv policy) (hd : s.due = false) {envelope : Envelope}
    {seen now : Instant} : s.Room (.push envelope seen now) ↔
      s.held.length < max 1 policy.maxRecords ∧ payload s.held < max 1 policy.maxBytes := by
  have hlen : s.held.length = s.acc.acks.length := by rw [h.holds.acks, List.length_map]
  have hdup := h.holds.duplicates
  have hbytes := h.holds.bytes
  show (s.due = true ∨ s.acc.duplicates = 0 ∨ _) ↔ _
  rw [h.policy_eq]
  refine ⟨fun hroom => ?_, fun hx => ?_⟩
  · rcases hroom with hx | hx | hx
    · rw [hd] at hx
      cases hx
    · rw [kept_of_no_duplicates h.holds hx] at hbytes
      rw [← hbytes]
      by_cases hr : s.acc.rows = []
      · have hacks := h.holds.rows_nil.1 hr
        have : s.acc.bytes = 0 := by
          have hnil : s.held = [] := by simpa [hacks] using hlen
          rw [hbytes, hnil]
          rfl
        rw [hlen, hacks, List.length_nil]
        omega
      · obtain ⟨h1, h2⟩ := h.below hd hr
        omega
    · exact ⟨by omega, hx.2⟩
  · exact .inr (.inr ⟨by omega, hx.2⟩)

/-- **What one call does**: it stays within the policy when it finds room. -/
theorem within_step_iff (h : s.Inv policy) (hs : s.step c = some s') : s'.Within ↔ s.Room c := by
  have h' := h.step hs
  have hlen : s'.acc.acks.length = s'.held.length := by rw [h'.holds.acks, List.length_map]
  rw [Within, hlen, h'.policy_eq]
  cases c with
  | push envelope seen now =>
    simp only [Caller.step] at hs
    split at hs
    · cases hs
    · rename_i hd
      cases hs
      rw [room_iff h (by simpa using hd)]
      show (s.held ++ [envelope]).length ≤ _ ∧ payload (s.held ++ [envelope]).dropLast < _ ↔ _
      rw [List.length_append, List.length_singleton, List.dropLast_concat]
      omega
  | take trigger =>
    cases hs
    refine iff_of_true ⟨?_, ?_⟩ trivial
    · exact Nat.zero_le _
    · show 0 < _
      omega

/-- **Without dedup the held envelopes always stay within the size policy.** -/
theorem held_within_size_policy_of_no_dedup (policy : BatchConfig) (hd : policy.dedup = false)
    (cs : List Call) : Always step Within (start policy) cs := by
  refine always_of_inv (I := fun s => s.Inv policy ∧ s.Within) ?_ ?_ ⟨inv_start, within_start⟩ cs
  · intro s c s' hI hs
    refine ⟨hI.1.step hs, (within_step_iff hI.1 hs).2 ?_⟩
    exact room_of_no_duplicates (duplicates_of_no_dedup hI.1 hd)
  · intro s hI
    exact hI.2

/-! ## Batches of one row -/

/-- The first row closes its batch. -/
def Small (policy : BatchConfig) : Prop :=
  policy.maxRecords ≤ 1 ∨ policy.maxBytes ≤ 1 ∨ policy.flushInterval = 0

/-- A buffered row has been there for no time at all. -/
theorem due_of_no_interval {acc : Accumulator} {es : List Envelope} {now : Instant}
    (h : Holds acc es) (hr : acc.rows ≠ []) (hf : acc.policy.flushInterval = 0) :
    acc.due now = true := by
  obtain ⟨t, ht⟩ := Option.ne_none_iff_exists'.1 fun hn => hr (h.firstSeen.2 hn)
  have hage : acc.ageExceeded now = true := by
    simp [Accumulator.ageExceeded, Accumulator.timeToFlush, ht, hf]
  have he : ¬acc.isEmpty = true := by simpa [Accumulator.isEmpty] using hr
  unfold Accumulator.due Accumulator.triggerNow
  rw [if_neg he, if_pos hage]
  split
  · rfl
  · split <;> rfl

theorem payload_pos {es : List Envelope} (h : es ≠ []) : 0 < payload es := by
  obtain ⟨e, es, rfl⟩ := List.exists_cons_of_ne_nil h
  rw [payload, List.map_cons, List.sum_cons]
  omega

/-- Under a small policy a buffered batch is due. -/
theorem due_of_small {acc : Accumulator} {es : List Envelope} {now : Instant} (h : Holds acc es)
    (hp : Small acc.policy) (hr : acc.rows ≠ []) : acc.due now = true := by
  by_contra hdue
  obtain ⟨h1, h2⟩ := below_of_not_due (by simpa using hdue) hr
  have hlen := List.length_pos_of_ne_nil hr
  have hkept : kept acc.policy es ≠ [] := fun hnil => hr (by rw [h.rows, hnil, List.map_nil])
  have hbytes := payload_pos hkept
  rw [← h.bytes] at hbytes
  rcases hp with hp | hp | hp
  · omega
  · omega
  · exact hdue (due_of_no_interval h hr hp)

/-- **Under a small policy too**: between two pushes nothing is held. -/
theorem held_within_size_policy_of_small (policy : BatchConfig) (hp : Small policy)
    (cs : List Call) : Always step Within (start policy) cs := by
  refine always_of_inv
    (I := fun s : Caller => s.Inv policy ∧ s.Within ∧ (s.due = false → s.held = [])) ?_
    (fun s hI => hI.2.1) ⟨inv_start, within_start, fun _ => rfl⟩ cs
  intro s c s' hI hs
  obtain ⟨hinv, -, hheld⟩ := hI
  have hinv' := hinv.step hs
  cases c with
  | push envelope seen now =>
    refine ⟨hinv', (within_step_iff hinv hs).2 ?_, ?_⟩
    · by_cases hd : s.due = true
      · exact .inl hd
      · have hdup := hinv.holds.duplicates
        rw [hinv.holds.acks, hheld (by simpa using hd), List.map_nil, List.length_nil] at hdup
        exact .inr (.inl (by omega))
    · simp only [Caller.step] at hs
      split at hs
      · cases hs
      · cases hs
        intro hdue
        have hk : envelope.event.key ∈ (s.acc.push envelope seen now).2.rows.map
          Trades.TradeEvent.key := Accumulator.mem_keys_push
        have hr : (s.acc.push envelope seen now).2.rows ≠ [] := fun hnil => by
          rw [hnil] at hk
          exact List.not_mem_nil hk
        have hpol : Small (s.acc.push envelope seen now).2.policy := by
          rw [Accumulator.push_policy, hinv.policy_eq]
          exact hp
        have htrue : (s.acc.push envelope seen now).2.due now = true :=
          due_of_small hinv'.holds hpol hr
        rw [push_fst, htrue] at hdue
        cases hdue
  | take trigger =>
    refine ⟨hinv', (within_step_iff hinv hs).2 trivial, ?_⟩
    cases hs
    exact fun _ => rfl

/-! ## Keys that come again -/

/-- When an envelope is pushed, no two of those pushed since the last take have one key. -/
def Unrepeated (s : Caller) : Call → Prop
  | .push _ _ _ => (s.held.map (·.event.key)).Nodup
  | .take _ => True

instance instDecidableUnrepeated (s : Caller) : ∀ c, Decidable (s.Unrepeated c)
  | .push _ _ _ => inferInstanceAs (Decidable (List.Nodup _))
  | .take _ => isTrue trivial

/-- Of distinct keys none is dropped. -/
theorem duplicates_of_unrepeated (h : s.Inv policy) (hu : (s.held.map (·.event.key)).Nodup) :
    s.acc.duplicates = 0 := by
  refine duplicates_of_kept h.holds ?_
  unfold kept
  split
  · exact Window.firsts_eq_self hu
  · rfl

/-- **Whatever the policy**, when no key comes again before the batch is taken. -/
theorem held_within_size_policy_of_unrepeated (policy : BatchConfig) (cs : List Call)
    (h : EachStep step Unrepeated (start policy) cs) : Always step Within (start policy) cs := by
  refine always_of_eachStep (I := fun s => s.Inv policy ∧ s.Within) ?_ (fun s hI => hI.2)
    ⟨inv_start, within_start⟩ h
  intro s c s' hI hu hs
  refine ⟨hI.1.step hs, (within_step_iff hI.1 hs).2 ?_⟩
  cases c with
  | push envelope seen now => exact room_of_no_duplicates (duplicates_of_unrepeated hI.1 hu)
  | take trigger => trivial

/-- Only deliveries of one message are held, all of the instant `t`. -/
structure Again (envelope : Envelope) (t : Instant) (s : Caller) : Prop where
  notDue : s.due = false
  held : ∀ e ∈ s.held, e = envelope
  firstSeen : ∀ t', s.acc.firstSeen = some t' → t' = t

/-- The message's row is buffered once. -/
theorem rows_of_again {envelope : Envelope} (h : s.Inv policy) (hd : policy.dedup = true)
    (ha : ∀ e ∈ s.held, e = envelope) :
    s.acc.rows.length ≤ 1 ∧ s.acc.bytes ≤ max envelope.bytes 1 := by
  have hrep : kept s.acc.policy s.held =
      List.replicate (kept s.acc.policy s.held).length envelope :=
    List.eq_replicate_iff.2 ⟨rfl, fun e he => ha e (kept_sublist.subset he)⟩
  have hnd := s.acc.distinct (by rw [h.policy_eq, hd])
  rw [h.holds.rows, List.map_map, hrep, List.map_replicate, List.nodup_replicate] at hnd
  rw [h.holds.rows, List.length_map, h.holds.bytes]
  refine ⟨hnd, ?_⟩
  rcases Nat.le_one_iff_eq_zero_or_eq_one.1 hnd with hn | hn
  · rw [hrep, hn]
    exact Nat.zero_le _
  · rw [hrep, hn]
    exact le_rfl

theorem triggerNow_eq_none {acc : Accumulator} {now : Instant}
    (hrows : acc.rows.length < acc.policy.maxRecords) (hbytes : acc.bytes < acc.policy.maxBytes)
    (hage : acc.ageExceeded now = false) : acc.triggerNow now = none := by
  unfold Accumulator.triggerNow
  split
  · rfl
  · rw [if_neg (by omega), if_neg (by omega), if_neg (by simp [hage])]

/-- **One more delivery** closes no batch. -/
theorem Again.push {envelope : Envelope} {t : Instant} (h : s.Inv policy)
    (ha : Again envelope t s) (hd : policy.dedup = true) (hrecords : 1 < policy.maxRecords)
    (hbytes : max envelope.bytes 1 < policy.maxBytes) (hf : 0 < policy.flushInterval) :
    ∃ s', s.step (.push envelope t t) = some s' ∧ Again envelope t s' ∧
      s'.held = s.held ++ [envelope] := by
  have hs : s.step (.push envelope t t) = some ⟨(s.acc.push envelope t t).2, s.held ++ [envelope],
      (s.acc.push envelope t t).1⟩ := by
    simp [Caller.step, ha.notDue]
  have hinv := h.step hs
  have hheld : ∀ e ∈ s.held ++ [envelope], e = envelope := fun e he => by
    rcases List.mem_append.1 he with he | he
    · exact ha.held e he
    · exact List.mem_singleton.1 he
  have hseen : ∀ t', (s.acc.push envelope t t).2.firstSeen = some t' → t' = t := by
    intro t' ht
    unfold Accumulator.push at ht
    split at ht
    · exact ha.firstSeen t' ht
    · simp only [Accumulator.accept] at ht
      split at ht
      · exact (Option.some.inj ht).symm
      · exact ha.firstSeen t' ht
  obtain ⟨h1, h2⟩ := rows_of_again hinv hd hheld
  have hpol : (s.acc.push envelope t t).2.policy = policy := hinv.policy_eq
  have hage : (s.acc.push envelope t t).2.ageExceeded t = false := by
    unfold Accumulator.ageExceeded Accumulator.timeToFlush
    cases hfs : (s.acc.push envelope t t).2.firstSeen with
    | none => rfl
    | some t' =>
      rw [hseen t' hfs, hpol]
      simp
      omega
  have hnone : (s.acc.push envelope t t).2.triggerNow t = none := by
    refine triggerNow_eq_none ?_ ?_ hage
    · rw [hpol]
      exact h1.trans_lt hrecords
    · rw [hpol]
      exact h2.trans_lt hbytes
  refine ⟨_, hs, ⟨?_, hheld, hseen⟩, rfl⟩
  show (s.acc.push envelope t t).1 = false
  rw [push_fst, Accumulator.due, hnone]
  rfl

/-- Any number of deliveries of one message are held, if its row closes no batch. -/
theorem run_again (policy : BatchConfig) (hd : policy.dedup = true)
    (hrecords : 1 < policy.maxRecords) (hf : 0 < policy.flushInterval) (envelope : Envelope)
    (hbytes : max envelope.bytes 1 < policy.maxBytes) (t : Instant) (n : Nat) :
    ∃ s, run step (start policy) (.replicate n (.push envelope t t)) = some s ∧ s.Inv policy ∧
      Again envelope t s ∧ s.held.length = n := by
  induction n with
  | zero => exact ⟨_, rfl, inv_start, ⟨rfl, fun _ h => absurd h List.not_mem_nil,
      fun _ h => by cases h⟩, rfl⟩
  | succ n ih =>
    obtain ⟨s, hr, hinv, hagain, hlen⟩ := ih
    obtain ⟨s', hs, hagain', hheld⟩ := hagain.push hinv hd hrecords hbytes hf
    refine ⟨s', ?_, hinv.step hs, hagain', ?_⟩
    · rw [List.replicate_succ', run_append]
      exact ⟨s, hr, run_cons.2 ⟨s', hs, rfl⟩⟩
    · rw [hheld, List.length_append, hlen, List.length_singleton]

/-- **When the held envelopes stay within the size policy**: without dedup, under a policy whose
batches have one row, or in a run in which no key comes again before its batch is taken. Under any
other policy a message that is delivered often enough is held too often. -/
theorem held_within_size_policy_iff (policy : BatchConfig) :
    (∀ cs, (policy.dedup = false ∨ Small policy) ∨ EachStep step Unrepeated (start policy) cs →
      Always step Within (start policy) cs) ∧
    ((∀ cs, Always step Within (start policy) cs) ↔ policy.dedup = false ∨ Small policy) := by
  have hsafe : policy.dedup = false ∨ Small policy →
      ∀ cs, Always step Within (start policy) cs := by
    intro hp cs
    rcases hp with hp | hp
    · exact held_within_size_policy_of_no_dedup policy hp cs
    · exact held_within_size_policy_of_small policy hp cs
  refine ⟨fun cs h => ?_, fun hall => ?_, hsafe⟩
  · rcases h with h | h
    · exact hsafe h cs
    · exact held_within_size_policy_of_unrepeated policy cs h
  · by_contra hp
    obtain ⟨hd, hsmall⟩ := not_or.1 hp
    obtain ⟨h1, h2, h3⟩ : 1 < policy.maxRecords ∧ 1 < policy.maxBytes ∧
        0 < policy.flushInterval := by
      unfold Small at hsmall
      omega
    -- One message, once more than there is room for.
    obtain ⟨s, hr, hinv, -, hlen⟩ := run_again policy (by simpa using hd) h1 h3
      ⟨Trades.btcTrade 1 0, 1, .none⟩ (by simpa using h2) 0 (policy.maxRecords + 1)
    have hw := ((hall _).last hr).1
    rw [hinv.holds.acks, List.length_map, hlen, hinv.policy_eq] at hw
    omega

/-- Trade 1 is taken before it comes again. -/
theorem held_within_size_policy_taken : Always step Within (start ⟨2, 100, 10, true⟩)
    [.push ⟨Trades.btcTrade 1 0, 1, .none⟩ 0 0, .push ⟨Trades.btcTrade 2 0, 1, .none⟩ 0 0,
      .take .count, .push ⟨Trades.btcTrade 1 0, 1, .none⟩ 1 1] :=
  (held_within_size_policy_iff ⟨2, 100, 10, true⟩).1 _ (.inr (by decide +kernel))

/-- Duplicates that `max_records` and `max_bytes` never see: a third delivery of one trade, with
room for two. -/
theorem duplicates_exceed_size_policy : ¬∀ (policy : BatchConfig) (cs : List Call),
    Always step Within (start policy) cs := by
  intro h
  have hx : ∃ s, run step (start ⟨2, 100, 10, true⟩)
      (.replicate 3 (.push ⟨Trades.btcTrade 1 0, 1, .none⟩ 0 0)) = some s ∧ ¬s.Within :=
    ⟨_, rfl, by decide⟩
  obtain ⟨s, hr, hs⟩ := hx
  exact hs ((h _ _).last hr)

end Caller

end Batcher
