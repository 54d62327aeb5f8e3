import CryptoLakehouse.Lib.Machine
import CryptoLakehouse.Batcher.Consumer

/-!
# The durable consumer is kept and reconciled

Any number of batchers run `ensure_consumer` at once, with any settings.

* `Changes` — all that a request can do to the server's consumers.
* `consumer_kept` — no start lets go of an ack, and a consumer's configuration is one that was asked
  for.
* `Settled` — the consumer has the fields that are compared as these settings ask for them; starts
  with the same settings leave it so (`settled_step`).
* `consumer_settles` — one start that is answered settles it, and from then on nobody updates it.
-/

namespace Batcher.Consumer

open Settings
open Provisioning (Outcome)

/-- The fields that are compared agree. -/
structure Matches (current config : ConsumerConfig) : Prop where
  ackWait : current.ackWait = config.ackWait
  maxAckPending : current.maxAckPending = config.maxAckPending
  filterSubject : current.filterSubject = config.filterSubject

theorem drifted_eq_false {current config : ConsumerConfig} :
    drifted current config = false ↔ Matches current config := by
  simp only [drifted, Bool.or_eq_false_iff, bne_eq_false_iff_eq]
  refine ⟨fun h => ⟨h.1.1, h.1.2, h.2⟩, fun h => ⟨⟨h.ackWait, h.maxAckPending⟩, h.filterSubject⟩⟩

/-! ## The server -/

/-- All that a request can do to the consumers. -/
inductive Changes (consumers : Server) (name : String) (config : ConsumerConfig) : Server → Prop
  | same : Changes consumers name config consumers
  | put : Changes consumers name config (consumers.put name config)

/-- Every consumer is still there, with all its acks. -/
def Keeps (consumers consumers' : Server) : Prop :=
  ∀ name d, consumers name = some d → ∃ d', consumers' name = some d' ∧ d.acked <+: d'.acked

section
variable {consumers consumers' consumers'' : Server} {name other : String} {config : ConsumerConfig}
  {d : Durable}

theorem Keeps.refl (consumers : Server) : Keeps consumers consumers :=
  fun _ d h => ⟨d, h, List.prefix_refl _⟩

theorem Keeps.trans (h : Keeps consumers consumers') (h' : Keeps consumers' consumers'') :
    Keeps consumers consumers'' := by
  intro name d hd
  obtain ⟨d₁, hd₁, hp₁⟩ := h name d hd
  obtain ⟨d₂, hd₂, hp₂⟩ := h' name d₁ hd₁
  exact ⟨d₂, hd₂, hp₁.trans hp₂⟩

theorem put_self : (consumers.put name config) name =
    some ⟨config, (consumers name).elim [] (·.acked)⟩ := Function.update_self ..

theorem put_of_ne (h : other ≠ name) : (consumers.put name config) other = consumers other :=
  Function.update_of_ne h ..

theorem Changes.keeps (h : Changes consumers name config consumers') : Keeps consumers consumers' := by
  cases h with
  | same => exact .refl consumers
  | put =>
    intro other d hd
    by_cases ho : other = name
    · subst ho
      refine ⟨_, put_self, ?_⟩
      rw [hd]
      exact List.prefix_refl _
    · exact ⟨d, (put_of_ne ho).trans hd, List.prefix_refl _⟩

/-- A configuration was there before, or is what the request asks for. -/
theorem Changes.origin (h : Changes consumers name config consumers')
    (hd : consumers' other = some d) :
    (∃ d₀, consumers other = some d₀ ∧ d.config = d₀.config) ∨ other = name ∧ d.config = config := by
  cases h with
  | same => exact .inl ⟨d, hd, rfl⟩
  | put =>
    by_cases ho : other = name
    · subst ho
      rw [put_self] at hd
      cases hd
      exact .inr ⟨rfl, rfl⟩
    · exact .inl ⟨d, (put_of_ne ho).symm.trans hd, rfl⟩

theorem request_changes (stored : ConsumerConfig → ConsumerConfig) (name : String)
    (config : ConsumerConfig) (consumers : Server) (outcome : Outcome) (stage : Stage) :
    Changes consumers name (stored config)
      (request stored name config consumers outcome stage).1 := by
  cases stage with
  | creating => cases outcome <;> constructor
  | updating =>
    show Changes _ _ _ (update stored name config consumers outcome).1
    unfold update
    dsimp only
    split
    · exact .same
    · cases outcome <;> constructor
  | _ => exact .same

end

/-! ## Steps -/

section
variable {stored : ConsumerConfig → ConsumerConfig} {checks : Bool} {s s' : State} {a : Action}
  {name : String} {c : ConsumerConfig}

/-- What a step does. -/
inductive Took (stored : ConsumerConfig → ConsumerConfig) (checks : Bool) (s : State) :
    Action → State → Prop
  | start (pid : Nat) (cfg : NatsConfig) (batch : BatchConfig) :
    Took stored checks s (.start pid cfg batch)
      { s with procs := Function.update s.procs pid (begin checks cfg batch) }
  | request (pid : Nat) (outcome : Outcome) {name : String} {config : ConsumerConfig} {stage : Stage}
      (hp : s.procs pid = .running name config stage) :
    Took stored checks s (.request pid outcome)
      ⟨(Consumer.request stored name config s.consumers outcome stage).1, Function.update s.procs pid
        (Consumer.request stored name config s.consumers outcome stage).2⟩
  | ack {name : String} {seq : Nat} {d : Durable} (hd : s.consumers name = some d) :
    Took stored checks s (.ack name seq)
      ⟨Function.update s.consumers name (some { d with acked := d.acked ++ [seq] }), s.procs⟩

theorem step_took (h : step stored checks s a = some s') : Took stored checks s a s' := by
  cases a with
  | start pid cfg batch =>
    cases h
    exact .start pid cfg batch
  | request pid outcome =>
    simp only [step] at h
    split at h
    · cases h
      exact .request pid outcome ‹_›
    · cases h
  | ack name seq =>
    obtain ⟨d, hd, rfl⟩ := Option.map_eq_some_iff.1 h
    exact .ack hd

theorem keeps_step (h : step stored checks s a = some s') : Keeps s.consumers s'.consumers := by
  cases step_took h with
  | start pid cfg batch => exact .refl _
  | request pid outcome hp => exact (request_changes ..).keeps
  | @ack name seq d hd =>
    intro other d' hd'
    by_cases ho : other = name
    · subst ho
      rw [hd] at hd'
      cases hd'
      exact ⟨_, Function.update_self .., List.prefix_append _ _⟩
    · exact ⟨d', (Function.update_of_ne ho ..).trans hd', List.prefix_refl _⟩

theorem begin_running {cfg : NatsConfig} {batch : BatchConfig} {stage : Stage}
    {config : ConsumerConfig}
    (h : begin checks cfg batch = .running name config stage) :
    cfg.consumer = name ∧ consumerConfig checks cfg batch = .ok config ∧ stage = .getting := by
  unfold begin at h
  split at h
  · cases h
    exact ⟨rfl, ‹_›, rfl⟩
  · cases h

/-- What a process runs with, or ran. -/
def Proc.settings? : Proc → Option (String × ConsumerConfig)
  | running name config _ => some (name, config)
  | ready name config _ => some (name, config)
  | _ => none

/-- A process keeps its name and configuration until it fails. -/
theorem request_settings {config : ConsumerConfig} {consumers : Server} {outcome : Outcome}
    {stage : Stage} {settings : String × ConsumerConfig}
    (h : (request stored name config consumers outcome stage).2.settings? = some settings) :
    settings = (name, config) := by
  cases stage with
  | getting =>
    cases outcome with
    | answered =>
      simp only [request, get] at h
      split at h <;> cases h <;> rfl
    | _ => cases h
  | creating => cases outcome <;> cases h; rfl
  | inspecting =>
    cases outcome with
    | answered =>
      simp only [request, inspect] at h
      split at h
      · split at h <;> cases h <;> rfl
      · cases h
        rfl
    | _ => cases h; rfl
  | updating =>
    simp only [request, update] at h
    split at h
    · cases h
    · cases outcome <;> cases h
      rfl
  | reloading =>
    cases outcome with
    | answered =>
      simp only [request, reload] at h
      split at h <;> cases h
      rfl
    | _ => cases h
  | confirming => cases outcome <;> cases h <;> rfl

/-- Each process under way asks for what `A` allows, and so did those that made the consumers. -/
structure Asked (A : String → ConsumerConfig → Prop) (stored : ConsumerConfig → ConsumerConfig)
    (consumers : Server) (s : State) : Prop where
  procs : ∀ pid name config stage, s.procs pid = .running name config stage → A name config
  consumers : ∀ name d, s.consumers name = some d →
    (∃ d₀, consumers name = some d₀ ∧ d.config = d₀.config) ∨
      ∃ config, A name config ∧ d.config = stored config

/-- The settings of a start. -/
def Action.Asks (checks : Bool) (A : String → ConsumerConfig → Prop) : Action → Prop
  | .start _ cfg batch => ∀ config, consumerConfig checks cfg batch = .ok config →
    A cfg.consumer config
  | _ => True

theorem asked_step {A : String → ConsumerConfig → Prop} {consumers : Server} (ha : a.Asks checks A)
    (h : Asked A stored consumers s) (hs : step stored checks s a = some s') :
    Asked A stored consumers s' := by
  cases step_took hs with
  | start pid cfg batch =>
    refine ⟨fun q name config stage hq => ?_, h.consumers⟩
    dsimp only at hq
    by_cases hqp : q = pid
    · rw [hqp, Function.update_self] at hq
      obtain ⟨rfl, hconfig, -⟩ := begin_running hq
      exact ha config hconfig
    · rw [Function.update_of_ne hqp] at hq
      exact h.procs q name config stage hq
  | @request pid outcome name config stage hp =>
    refine ⟨fun q other config' stage' hq => ?_, fun other d hd => ?_⟩
    · dsimp only at hq
      by_cases hqp : q = pid
      · rw [hqp, Function.update_self] at hq
        have hx : (other, config') = (name, config) := request_settings (by rw [hq]; rfl)
        cases hx
        exact h.procs pid _ _ _ hp
      · rw [Function.update_of_ne hqp] at hq
        exact h.procs q other config' stage' hq
    · rcases (request_changes stored name config s.consumers outcome stage).origin hd with
        ⟨d₀, hd₀, he⟩ | ⟨rfl, he⟩
      · rw [he]
        exact h.consumers other d₀ hd₀
      · exact .inr ⟨config, h.procs pid _ _ _ hp, he⟩
  | @ack name seq d hd =>
    refine ⟨h.procs, fun other d' hd' => ?_⟩
    dsimp only at hd'
    by_cases ho : other = name
    · rw [ho, Function.update_self] at hd'
      cases hd'
      rw [ho]
      exact h.consumers name d hd
    · rw [Function.update_of_ne ho] at hd'
      exact h.consumers other d' hd'

/-- The configurations that the starts among the actions ask for. -/
def AskedIn (checks : Bool) (as : List Action) (name : String) (config : ConsumerConfig) : Prop :=
  ∃ pid cfg batch, Action.start pid cfg batch ∈ as ∧ cfg.consumer = name ∧
    consumerConfig checks cfg batch = .ok config

theorem asks_askedIn {as : List Action} (ha : a ∈ as) : a.Asks checks (AskedIn checks as) := by
  cases a with
  | start pid cfg batch => exact fun config hc => ⟨pid, cfg, batch, ha, rfl, hc⟩
  | _ => trivial

/-- **Kept.** However many batchers start, fail, lose their answers and start again, and with whatever
settings, a consumer once there is there for good with all its acks; and its configuration is the one
of before the run, or what the server makes of one that a start of the run asked for. -/
theorem consumer_kept {consumers : Server} {as bs : List Action}
    (hr : Machine.run (step stored checks) (.init consumers) as = some s)
    (hr' : Machine.run (step stored checks) s bs = some s') :
    (∀ name d, s.consumers name = some d →
      ∃ d', s'.consumers name = some d' ∧ d.acked <+: d'.acked) ∧
    ∀ name d, s.consumers name = some d →
      (∃ d₀, consumers name = some d₀ ∧ d.config = d₀.config) ∨
      ∃ pid cfg batch config, Action.start pid cfg batch ∈ as ∧ cfg.consumer = name ∧
        consumerConfig checks cfg batch = .ok config ∧ d.config = stored config := by
  have hkeeps : Keeps s.consumers s'.consumers :=
    Machine.run_inv (I := fun m => Keeps s.consumers m.consumers)
      (fun m a m' hm hs => hm.trans (keeps_step hs)) (.refl _) hr'
  have hstart : Asked (AskedIn checks as) stored consumers (.init consumers) :=
    ⟨fun _ _ _ _ hq => (nomatch hq), fun name d hd => .inl ⟨d, hd, rfl⟩⟩
  have h := Machine.run_inv_of (fun _ _ _ ha hi hs => asked_step ha hi hs)
    (fun _ ha => asks_askedIn ha) hstart hr
  refine ⟨hkeeps, fun name d hd => (h.consumers name d hd).imp_right fun hx => ?_⟩
  obtain ⟨config, ⟨pid, cfg, batch, hmem, hname, hc⟩, he⟩ := hx
  exact ⟨pid, cfg, batch, config, hmem, hname, hc, he⟩

end

/-! ## A rollout -/

/-- The settings of the deployment. -/
def rollout : NatsConfig where
  url := "nats://nats:4222"
  stream := "tradesstream"
  subjectFilter := "exchange.*"
  consumer := "iceberg-batcher"
  ackWait := 300000000000
  fetchBatch := 2000
  fetchExpires := 2000000000

def rolloutBatch : BatchConfig where
  maxRecords := 50000
  maxBytes := 33554432
  flushInterval := 30000000000
  dedup := true

def rolloutConfig : ConsumerConfig where
  name := some "iceberg-batcher"
  durableName := some "iceberg-batcher"
  filterSubject := "exchange.*"
  ackWait := 300000000000
  maxDeliver := -1
  maxAckPending := 100000

/-- A consumer with the `ack_wait` of an earlier deployment. -/
def stale : Server :=
  Function.update (fun _ => none) "iceberg-batcher" (some ⟨{ rolloutConfig with ackWait := 30 }, [1]⟩)

/-- An update whose answer is lost. -/
def lostUpdate : List Action :=
  [.start 0 rollout rolloutBatch, .request 0 .answered, .request 0 .answered,
    .request 0 (.lost "connection reset"), .ack "iceberg-batcher" 2]

theorem consumer_kept_lost : ∃ s s' d d',
    Machine.run (step id true) (.init stale) lostUpdate = some s ∧
    Machine.run (step id true) s [.start 0 rollout rolloutBatch, .request 0 .answered] = some s' ∧
    s.consumers "iceberg-batcher" = some d ∧ d.acked = [1, 2] ∧
    s'.consumers "iceberg-batcher" = some d' ∧ d.acked <+: d'.acked := by
  have hx : (Machine.run (step id true) (.init stale) lostUpdate).bind (fun s =>
      (Machine.run (step id true) s [.start 0 rollout rolloutBatch, .request 0 .answered]).bind
        fun _ => (s.consumers "iceberg-batcher").map (·.acked)) = some [1, 2] := by decide +kernel
  obtain ⟨s, hs, hx⟩ := Option.bind_eq_some_iff.1 hx
  obtain ⟨s', hs', hx⟩ := Option.bind_eq_some_iff.1 hx
  obtain ⟨d, hd, hacked⟩ := Option.map_eq_some_iff.1 hx
  obtain ⟨d', hd', hp⟩ := (consumer_kept hs hs').1 "iceberg-batcher" d hd
  exact ⟨s, s', d, d', hs, hs', hd, hacked, hd', hp⟩

/-! ## Settled -/

section
variable {stored : ConsumerConfig → ConsumerConfig} {checks : Bool} {s s' : State} {a : Action}
  {name : String} {c : ConsumerConfig}

/-- The consumer of this name has the fields that these settings ask for. -/
def Settled (name : String) (c : ConsumerConfig) (consumers : Server) : Prop :=
  ∃ d, consumers name = some d ∧ Matches d.config c

/-- Whoever is under way for this name has this configuration. -/
def Uniform (name : String) (c : ConsumerConfig) (s : State) : Prop :=
  ∀ pid config stage, s.procs pid = .running name config stage → config = c

/-- The starts for this name ask for this configuration. -/
def Action.Same (checks : Bool) (name : String) (c : ConsumerConfig) (a : Action) : Prop :=
  a.Asks checks fun other config => other = name → config = c

theorem uniform_step (ha : a.Same checks name c) (h : Uniform name c s)
    (hs : step stored checks s a = some s') : Uniform name c s' := by
  have hasked : Asked (fun other config => other = name → config = c) stored s.consumers s :=
    ⟨fun q other config stage hq he => h q config stage (he ▸ hq), fun _ d hd => .inl ⟨d, hd, rfl⟩⟩
  exact fun q config stage hq => (asked_step ha hasked hs).procs q name config stage hq rfl

theorem settled_put {consumers : Server} (hkeep : Matches (stored c) c) :
    Settled name c (consumers.put name (stored c)) := ⟨_, put_self, hkeep⟩

/-- **Starts with the same settings** leave a settled consumer so. -/
theorem settled_step (hkeep : Matches (stored c) c) (hu : Uniform name c s)
    (h : Settled name c s.consumers) (hs : step stored checks s a = some s') :
    Settled name c s'.consumers := by
  obtain ⟨d, hd, hm⟩ := h
  cases step_took hs with
  | start pid cfg batch => exact ⟨d, hd, hm⟩
  | @request pid outcome other config stage hp =>
    have hc := request_changes stored other config s.consumers outcome stage
    dsimp only
    generalize (request stored other config s.consumers outcome stage).1 = consumers at hc
    cases hc with
    | same => exact ⟨d, hd, hm⟩
    | put =>
      by_cases ho : name = other
      · subst ho
        cases hu pid config stage hp
        exact settled_put hkeep
      · exact ⟨d, (put_of_ne ho).trans hd, hm⟩
  | @ack other seq d' hd' =>
    by_cases ho : name = other
    · subst ho
      rw [hd] at hd'
      cases hd'
      exact ⟨_, Function.update_self .., hm⟩
    · exact ⟨d, (Function.update_of_ne ho ..).trans hd, hm⟩

/-- What a process that has updated the consumer, or has seen it, may rely on. -/
def Relies (name : String) (c : ConsumerConfig) (consumers : Server) : Proc → Prop
  | .running other _ stage => other = name → stage = .reloading ∨ stage = .confirming →
    Settled name c consumers
  | .ready other _ info => other = name → ∀ current, info = some current →
    Matches current c ∧ Settled name c consumers
  | _ => True

theorem Relies.settled {consumers consumers' : Server} {p : Proc}
    (h : Relies name c consumers p) (hx : Settled name c consumers → Settled name c consumers') :
    Relies name c consumers' p := by
  cases p with
  | running other config stage => exact fun ho hstage => hx (h ho hstage)
  | ready other config info =>
    intro ho current hi
    obtain ⟨hm, hset⟩ := h ho current hi
    exact ⟨hm, hx hset⟩
  | _ => trivial

/-- What has to do with other consumers relies on nothing. -/
theorem relies_other {consumers : Server} {p : Proc}
    (h : ∀ settings, p.settings? = some settings → settings.1 ≠ name) : Relies name c consumers p := by
  cases p with
  | running other config stage => exact fun ho => absurd ho (h _ rfl)
  | ready other config info => exact fun ho => absurd ho (h _ rfl)
  | _ => trivial

/-- A request leaves the process with what it may rely on. -/
theorem relies_request {consumers : Server} {outcome : Outcome} {stage : Stage}
    (hkeep : Matches (stored c) c) (h : Relies name c consumers (.running name c stage)) :
    Relies name c (request stored name c consumers outcome stage).1
      (request stored name c consumers outcome stage).2 := by
  cases stage with
  | getting =>
    cases outcome with
    | answered =>
      simp only [request, get]
      split <;> simp [Relies]
    | _ => trivial
  | creating =>
    cases outcome with
    | answered => simp [request, create, Relies]
    | _ => trivial
  | inspecting =>
    cases outcome with
    | answered =>
      simp only [request, inspect]
      split
      · rename_i d hd
        split
        · simp [Relies]
        · rename_i hdrift
          have hm := drifted_eq_false.1 (Bool.eq_false_of_not_eq_true hdrift)
          intro _ current hi
          cases hi
          exact ⟨hm, d, hd, hm⟩
      · simp [Relies]
    | _ => simp [request, inspect, Relies]
  | updating =>
    simp only [request, update]
    split
    · trivial
    · cases outcome with
      | answered => exact fun _ _ => settled_put hkeep
      | _ => trivial
  | reloading =>
    cases outcome with
    | answered =>
      simp only [request, reload]
      split
      · trivial
      · exact fun _ _ => h rfl (.inl rfl)
    | _ => trivial
  | confirming =>
    obtain ⟨d, hd, hm⟩ := h rfl (.inr rfl)
    cases outcome with
    | answered =>
      intro _ current hi
      rw [hd] at hi
      cases hi
      exact ⟨hm, d, hd, hm⟩
    | _ => simp [request, confirm, Relies]

/-- The invariant of runs whose starts have the same settings, from the start of `pid` on. -/
structure Watched (name : String) (c : ConsumerConfig) (pid : Nat) (s : State) : Prop where
  uniform : Uniform name c s
  relies : Relies name c s.consumers (s.procs pid)

theorem watched_step {pid : Nat} (hkeep : Matches (stored c) c) (ha : a.Same checks name c)
    (h : Watched name c pid s) (hs : step stored checks s a = some s') : Watched name c pid s' := by
  refine ⟨uniform_step ha h.uniform hs, ?_⟩
  have hset : Settled name c s.consumers → Settled name c s'.consumers :=
    fun hx => settled_step hkeep h.uniform hx hs
  have hrel := h.relies.settled hset
  cases step_took hs with
  | start q cfg batch =>
    dsimp only at hrel ⊢
    by_cases hq : pid = q
    · subst hq
      rw [Function.update_self]
      cases hb : begin checks cfg batch with
      | running other config stage =>
        obtain ⟨-, -, rfl⟩ := begin_running hb
        simp [Relies]
      | ready other config info =>
        unfold begin at hb
        split at hb <;> cases hb
      | _ => trivial
    · rw [Function.update_of_ne hq]
      exact hrel
  | @request q outcome other config stage hp =>
    dsimp only at hrel ⊢
    by_cases hq : pid = q
    · subst hq
      rw [Function.update_self]
      by_cases ho : other = name
      · subst ho
        cases h.uniform pid config stage hp
        have hr := h.relies
        rw [hp] at hr
        exact relies_request hkeep hr
      · exact relies_other fun settings hx => by
          rw [request_settings hx]
          exact ho
    · rw [Function.update_of_ne hq]
      exact hrel
  | ack hd => exact hrel

/-- Whoever goes on to update the consumer has seen that it drifted. -/
theorem request_updating {config config' : ConsumerConfig} {consumers : Server} {outcome : Outcome}
    {stage : Stage} {other : String}
    (h : (request stored name config consumers outcome stage).2 = .running other config' .updating) :
    ∃ d, consumers name = some d ∧ drifted d.config config = true := by
  cases stage with
  | getting =>
    cases outcome with
    | answered =>
      simp only [request, get] at h
      split at h <;> cases h
    | _ => cases h
  | creating => cases outcome <;> cases h
  | inspecting =>
    cases outcome with
    | answered =>
      simp only [request, inspect] at h
      split at h
      · split at h
        · exact ⟨_, ‹_›, ‹_›⟩
        · cases h
      · cases h
    | _ => cases h
  | updating =>
    simp only [request, update] at h
    split at h
    · cases h
    · cases outcome <;> cases h
  | reloading =>
    cases outcome with
    | answered =>
      simp only [request, reload] at h
      split at h <;> cases h
    | _ => cases h
  | confirming => cases outcome <;> cases h

/-- Settled since `s₀`: nobody has gone on to update the consumer. -/
structure Rests (name : String) (c : ConsumerConfig) (s₀ s : State) : Prop where
  uniform : Uniform name c s
  settled : Settled name c s.consumers
  updating : ∀ q config, s.procs q = .running name config .updating →
    s₀.procs q = .running name config .updating

theorem rests_step {s₀ : State} (hkeep : Matches (stored c) c) (ha : a.Same checks name c)
    (h : Rests name c s₀ s) (hs : step stored checks s a = some s') : Rests name c s₀ s' := by
  refine ⟨uniform_step ha h.uniform hs, settled_step hkeep h.uniform h.settled hs,
    fun q config hq => ?_⟩
  cases step_took hs with
  | start p cfg batch =>
    dsimp only at hq
    by_cases hqp : q = p
    · rw [hqp, Function.update_self] at hq
      obtain ⟨-, -, hstage⟩ := begin_running hq
      cases hstage
    · rw [Function.update_of_ne hqp] at hq
      exact h.updating q config hq
  | @request p outcome other config' stage hp =>
    dsimp only at hq
    by_cases hqp : q = p
    · subst hqp
      rw [Function.update_self] at hq
      have hx : (name, config) = (other, config') := request_settings (by rw [hq]; rfl)
      cases hx
      obtain ⟨d, hd, hdrift⟩ := request_updating hq
      obtain ⟨d', hd', hm⟩ := h.settled
      rw [hd] at hd'
      cases hd'
      cases h.uniform q config stage hp
      rw [drifted_eq_false.2 hm] at hdrift
      cases hdrift
    · rw [Function.update_of_ne hqp] at hq
      exact h.updating q config hq
  | ack hd => exact h.updating q config hq

/-! ## One start that is answered -/

/-- On its own, the process is ready after at most `n` answers, with the consumer settled. -/
def ReadyWithin (stored : ConsumerConfig → ConsumerConfig) (checks : Bool) (name : String)
    (c : ConsumerConfig) (pid n : Nat) (consumers : Server) (p : Proc) : Prop :=
  ∀ s : State, s.consumers = consumers → s.procs pid = p → ∃ m ≤ n, ∃ s' info,
    Machine.run (step stored checks) s (List.replicate m (.request pid .answered)) = some s' ∧
    s'.procs pid = .ready name c (some info) ∧ Matches info c ∧ Settled name c s'.consumers

section
variable {pid n : Nat} {consumers consumers' : Server} {stage : Stage} {p : Proc}

/-- One answer. -/
theorem ReadyWithin.answer (h : ReadyWithin stored checks name c pid n consumers' p)
    (hr : request stored name c consumers .answered stage = (consumers', p)) :
    ReadyWithin stored checks name c pid (n + 1) consumers (.running name c stage) := by
  intro s hs hp
  subst hs
  have hstep : step stored checks s (.request pid .answered) =
      some ⟨consumers', Function.update s.procs pid p⟩ := by
    simp [step, hp, hr]
  obtain ⟨m, hm, s', info, hrun, hready⟩ :=
    h ⟨consumers', Function.update s.procs pid p⟩ rfl (Function.update_self ..)
  exact ⟨m + 1, by omega, s', info, Machine.run_cons.2 ⟨_, hstep, hrun⟩, hready⟩

theorem ReadyWithin.mono {n' : Nat} (h : ReadyWithin stored checks name c pid n consumers p)
    (hn : n ≤ n') : ReadyWithin stored checks name c pid n' consumers p := by
  intro s hs hp
  obtain ⟨m, hm, hx⟩ := h s hs hp
  exact ⟨m, by omega, hx⟩

theorem readyWithin_ready {d : Durable} (hd : consumers name = some d) (hm : Matches d.config c) :
    ReadyWithin stored checks name c pid 0 consumers (.ready name c (some d.config)) := by
  intro s hs hp
  subst hs
  exact ⟨0, le_rfl, s, d.config, rfl, hp, hm, d, hd, hm⟩

/-- After an update. -/
theorem readyWithin_reloading (h : Settled name c consumers) :
    ReadyWithin stored checks name c pid 2 consumers (.running name c .reloading) := by
  obtain ⟨d, hd, hm⟩ := h
  have hconfirm : ReadyWithin stored checks name c pid 1 consumers (.running name c .confirming) :=
    (readyWithin_ready hd hm).answer (by simp [request, confirm, hd])
  exact hconfirm.answer (by simp [request, reload, hd])

theorem readyWithin_inspecting (hkeep : Matches (stored c) c) {d : Durable}
    (hd : consumers name = some d) :
    ReadyWithin stored checks name c pid 4 consumers (.running name c .inspecting) := by
  cases hdrift : drifted d.config c with
  | false =>
    have hready : ReadyWithin stored checks name c pid 0 consumers (.ready name c (some d.config)) :=
      readyWithin_ready hd (drifted_eq_false.1 hdrift)
    exact (hready.answer (by simp [request, inspect, hd, hdrift])).mono (by omega)
  | true =>
    have hset : Settled name c (consumers.put name (stored c)) := settled_put hkeep
    have hupdate : ReadyWithin stored checks name c pid 3 consumers (.running name c .updating) :=
      (readyWithin_reloading hset).answer (by simp [request, update, hd])
    exact hupdate.answer (by simp [request, inspect, hd, hdrift])

theorem readyWithin_getting (hkeep : Matches (stored c) c) (consumers : Server) :
    ReadyWithin stored checks name c pid 5 consumers (.running name c .getting) := by
  cases hd : consumers name with
  | some d => exact (readyWithin_inspecting hkeep hd).answer (by simp [request, get, hd])
  | none =>
    -- The consumer that has just been made has not drifted.
    have hput : (consumers.put name (stored c)) name =
        some ⟨stored c, (consumers name).elim [] (·.acked)⟩ := put_self
    have hinspect : ReadyWithin stored checks name c pid 1 (consumers.put name (stored c))
        (.running name c .inspecting) :=
      (readyWithin_ready hput hkeep).answer
        (by simp [request, inspect, hput, drifted_eq_false.2 hkeep])
    have hcreate : ReadyWithin stored checks name c pid 2 consumers (.running name c .creating) :=
      hinspect.answer rfl
    exact (hcreate.answer (by simp [request, get, hd])).mono (by omega)

end

/-- **Settles.** From any state, one start and at most five answers bring a process that is on its own
to a consumer that has the fields its settings ask for. And when whoever is under way has the same
settings, and so have the starts to come, then as soon as one process that was started since has seen
the consumer, it has these fields, keeps them whatever fails, and nobody goes on to update it again. -/
theorem consumer_settles {cfg : NatsConfig} {batch : BatchConfig}
    (hc : consumerConfig checks cfg batch = .ok c) (hkeep : Matches (stored c) c) (s : State)
    (pid : Nat) :
    (∃ n ≤ 5, ∃ s' info, Machine.run (step stored checks) s
        (.start pid cfg batch :: List.replicate n (.request pid .answered)) = some s' ∧
      s'.procs pid = .ready cfg.consumer c (some info) ∧ Matches info c ∧
      Settled cfg.consumer c s'.consumers) ∧
    ∀ as s' config info, Uniform cfg.consumer c s → (∀ a ∈ as, a.Same checks cfg.consumer c) →
      Machine.run (step stored checks) s (.start pid cfg batch :: as) = some s' →
      s'.procs pid = .ready cfg.consumer config (some info) →
      Matches info c ∧ ∀ bs s'', (∀ b ∈ bs, b.Same checks cfg.consumer c) →
        Machine.run (step stored checks) s' bs = some s'' →
        Settled cfg.consumer c s''.consumers ∧ ∀ q config',
          s''.procs q = .running cfg.consumer config' .updating →
          s'.procs q = .running cfg.consumer config' .updating := by
  have hbegin : begin checks cfg batch = .running cfg.consumer c .getting := by simp [begin, hc]
  have hstep : step stored checks s (.start pid cfg batch) =
      some { s with procs := Function.update s.procs pid (.running cfg.consumer c .getting) } := by
    simp [step, hbegin]
  refine ⟨?_, fun as s' config info hu has hr hready => ?_⟩
  · have hget : ReadyWithin stored checks cfg.consumer c pid 5 s.consumers
        (.running cfg.consumer c .getting) := readyWithin_getting hkeep s.consumers
    obtain ⟨n, hn, s', info, hrun, hready, hsettled⟩ :=
      hget { s with procs := Function.update s.procs pid (.running cfg.consumer c .getting) } rfl
        (Function.update_self ..)
    exact ⟨n, hn, s', info, Machine.run_cons.2 ⟨_, hstep, hrun⟩, hready, hsettled⟩
  · have hsame : (Action.start pid cfg batch).Same checks cfg.consumer c := fun config' hc' _ => by
      rw [hc] at hc'
      cases hc'
      rfl
    obtain ⟨m, hm, hrun⟩ := Machine.run_cons.1 hr
    have hwatched : Watched cfg.consumer c pid m := by
      refine ⟨uniform_step hsame hu hm, ?_⟩
      rw [hstep] at hm
      cases hm
      dsimp only
      rw [Function.update_self]
      simp [Relies]
    have hw := Machine.run_inv_of (fun _ _ _ ha hi hs => watched_step hkeep ha hi hs) has hwatched hrun
    have hrel := hw.relies
    rw [hready] at hrel
    obtain ⟨hmatch, hset⟩ := hrel rfl info rfl
    refine ⟨hmatch, fun bs s'' hbs hr' => ?_⟩
    have hrest : Rests cfg.consumer c s' s' := ⟨hw.uniform, hset, fun _ _ h => h⟩
    have h := Machine.run_inv_of (fun _ _ _ ha hi hs => rests_step hkeep ha hi hs) hbs hrest hr'
    exact ⟨h.settled, h.updating⟩

end

theorem consumer_settles_stale : ∃ s' info, s'.procs 0 =
      .ready "iceberg-batcher" rolloutConfig (some info) ∧ Matches info rolloutConfig ∧
    ∀ bs s'', (∀ b ∈ bs, b.Same true "iceberg-batcher" rolloutConfig) →
      Machine.run (step id true) s' bs = some s'' →
      Settled "iceberg-batcher" rolloutConfig s''.consumers := by
  have hc : consumerConfig true rollout rolloutBatch = .ok rolloutConfig := by
    simp [consumerConfig, double, effectiveAckWait, mulDuration, addDuration, durationEnd, rollout,
      rolloutBatch, rolloutConfig]
    rfl
  have hkeep : Matches (id rolloutConfig) rolloutConfig := ⟨rfl, rfl, rfl⟩
  obtain ⟨⟨n, -, s', info, hrun, hready, -⟩, hsettles⟩ := consumer_settles hc hkeep (.init stale) 0
  have hu : Uniform "iceberg-batcher" rolloutConfig (.init stale) := fun _ _ _ h => nomatch h
  obtain ⟨hm, hforever⟩ := hsettles _ s' _ info hu
    (fun a ha => by rw [List.eq_of_mem_replicate ha]; trivial) hrun hready
  exact ⟨s', info, hready, hm, fun bs s'' hbs hr => (hforever bs s'' hbs hr).1⟩

end Batcher.Consumer
