import CryptoLakehouse.Lib.Amortized
import CryptoLakehouse.Collector.Proof.Rotation
import CryptoLakehouse.Collector.Supervisor

/-!
# What the collector's process does to the exchange

* `reconnect_rate` — in any stretch of time, at most five reconnects in 91 seconds and a few more.
* `connects_bounded` — what the orphaned managers add: one attempt to connect a call.
-/

namespace Collector.Supervisor

open Machine

section
variable {s s' : State} {a : Action} {t t' : Task} {now : Nat} {b : Collector.Action}

/-! ## The pause -/

/-- The pauses there are. -/
def backoffs : List Nat := [1, 2, 4, 8, 16, 32, 60].map (· * second)

def Paced (s : State) : Prop := s.backoff ∈ backoffs

theorem nextBackoff_mem {backoff : Nat} (h : backoff ∈ backoffs) :
    nextBackoff backoff ∈ backoffs := by
  simp only [backoffs, List.map_cons, List.map_nil, List.mem_cons, List.not_mem_nil, or_false] at h
  rcases h with rfl | rfl | rfl | rfl | rfl | rfl | rfl <;> decide

theorem pause_mem (h : Paced s) (started : Nat) : s.pause started ∈ backoffs := by
  unfold State.pause
  split
  · decide
  · exact h

theorem paced_step (h : Paced s) (hs : step s a = some s') : Paced s' := by
  cases a with
  | tick d =>
    cases hs
    exact h
  | emit =>
    cases hs
    exact h
  | task b =>
    obtain ⟨t, -, rfl⟩ := Option.map_eq_some_iff.1 hs
    exact h
  | orphan i b =>
    obtain ⟨t, -, hs⟩ := Option.bind_eq_some_iff.1 hs
    obtain ⟨t', -, rfl⟩ := Option.map_eq_some_iff.1 hs
    exact h
  | ended =>
    simp only [step, State.ended] at hs
    split at hs
    · cases hs
      exact pause_mem h _
    · cases hs
  | reconnect =>
    simp only [step, State.reconnect] at hs
    split at hs
    · cases hs
    · split at hs
      · cases hs
        exact nextBackoff_mem h
      · cases hs
  | crash =>
    cases hs
    show second ∈ backoffs
    decide

/-! ## The rate of reconnects -/

/-- What is left of five times the seconds that a run of short calls takes, less 91 a reconnect,
where the pause is `backoff`. -/
def slack (backoff : Nat) : Nat :=
  second * match backoff / second with
    | 1 => 300
    | 2 => 214
    | 4 => 133
    | 8 => 62
    | 16 => 11
    | 32 => 0
    | _ => 69

/-- What can be spent on reconnects without waiting. -/
def State.credit (s : State) : Nat :=
  match s.phase with
  | .running started => min (300 * second) (slack s.backoff + 5 * (s.now - started))
  | .sleeping wakeAt => slack (nextBackoff s.backoff) + 91 * second - 5 * (wakeAt - s.now)

def Action.isReconnect : Action → Bool
  | reconnect => true
  | _ => false

theorem slack_le (backoff : Nat) : slack backoff ≤ 300 * second := by
  unfold slack second
  split <;> omega

/-- A pause costs no more than the time it takes brings in. -/
theorem slack_next {backoff : Nat} (h : backoff ∈ backoffs) :
    slack (nextBackoff backoff) + 91 * second - 5 * backoff ≤ slack backoff := by
  simp only [backoffs, List.map_cons, List.map_nil, List.mem_cons, List.not_mem_nil, or_false] at h
  rcases h with rfl | rfl | rfl | rfl | rfl | rfl | rfl <;> decide

theorem credit_le (h : Paced s) : s.credit ≤ 305 * second := by
  unfold State.credit
  split
  · have : 300 * second ≤ 305 * second := by decide
    omega
  · have hnext : slack (nextBackoff s.backoff) ≤ 214 * second := by
      simp only [Paced, backoffs, List.map_cons, List.map_nil, List.mem_cons, List.not_mem_nil,
        or_false] at h
      rcases h with h | h | h | h | h | h | h <;> rw [h] <;> decide
    have : 214 * second + 91 * second = 305 * second := by decide
    omega

theorem credit_ended (h : Paced s) (hs : s.ended = some s') :
    s'.credit ≤ s.credit ∧ s'.now = s.now := by
  unfold State.ended at hs
  split at hs
  next started hp hl =>
    cases hs
    refine ⟨?_, rfl⟩
    simp only [State.credit, hp, State.pause, Nat.add_sub_cancel_left]
    split
    · -- A call that lasted: the pause begins anew, with all the credit that time brings.
      have h1 : slack (nextBackoff second) + 91 * second - 5 * second = 300 * second := by decide
      have h2 : 5 * (60 * second) = 300 * second := by decide
      omega
    · have h1 := slack_next h
      have h2 := slack_le s.backoff
      omega
  next => cases hs

theorem credit_reconnect (hs : s.reconnect = some s') :
    91 * second + s'.credit ≤ s.credit ∧ s'.now = s.now := by
  unfold State.reconnect at hs
  split at hs
  · cases hs
  next wakeAt hp =>
    split at hs
    · cases hs
      refine ⟨?_, rfl⟩
      simp only [State.credit, hp]
      omega
    · cases hs

/-- What a step that is no crash does to the credit and the clock. -/
theorem credit_step (h : Paced s) (ha : a ≠ .crash) (hs : step s a = some s') :
    ((if a.isReconnect then 91 * second else 0 : Nat) : Int) + (s'.credit - 5 * s'.now) ≤
      s.credit - 5 * s.now + (0 : Nat) := by
  cases a with
  | tick d =>
    cases hs
    simp only [State.credit, Action.isReconnect, Bool.false_eq_true, if_false]
    cases s.phase with
    | running started =>
      simp only
      omega
    | sleeping wakeAt =>
      simp only
      omega
  | emit =>
    cases hs
    simp [State.credit, Action.isReconnect]
  | task b =>
    obtain ⟨t, -, rfl⟩ := Option.map_eq_some_iff.1 hs
    simp [State.credit, Action.isReconnect]
  | orphan i b =>
    obtain ⟨t, -, hs⟩ := Option.bind_eq_some_iff.1 hs
    obtain ⟨t', -, rfl⟩ := Option.map_eq_some_iff.1 hs
    simp [State.credit, Action.isReconnect]
  | ended =>
    obtain ⟨hle, hnow⟩ := credit_ended h hs
    simp only [Action.isReconnect, Bool.false_eq_true, if_false]
    omega
  | reconnect =>
    obtain ⟨hle, hnow⟩ := credit_reconnect hs
    simp only [Action.isReconnect, if_true]
    omega
  | crash => exact absurd rfl ha

/-- **Reconnects are paced**: in every run of the process, any stretch of it without a crash has at
most five reconnects in 91 seconds of its time, and 305/91 more; the pause is always one to sixty
seconds. So there are at most nineteen in any five minutes, where the exchange allows 300. -/
theorem reconnect_rate {emitted : Nat} {as bs : List Action}
    (hr : run step (.init emitted) as = some s) (hr' : run step s bs = some s')
    (hb : ∀ b ∈ bs, b ≠ .crash) :
    91 * second * bs.countP Action.isReconnect ≤ 5 * (s'.now - s.now) + 305 * second ∧
    second ≤ s'.backoff ∧ s'.backoff ≤ 60 * second := by
  have hinit : Paced (.init emitted) := by
    show second ∈ backoffs
    decide
  have hmem : Paced s := run_inv (fun _ _ _ h hs => paced_step h hs) hinit hr
  have hmem' : Paced s' := run_inv (fun _ _ _ h hs => paced_step h hs) hmem hr'
  have hw : ∀ (s : State) (a : Action) (s' : State), a ≠ .crash → Paced s → step s a = some s' →
      ((if a.isReconnect then 91 * second else 0 : Nat) : Int) + (s'.credit - 5 * s'.now) ≤
        s.credit - 5 * s.now + (0 : Nat) := fun _ _ _ ha h hs => credit_step h ha hs
  have hcost := run_cost (fun _ _ _ _ h hs => paced_step h hs) hw hb hmem hr'
  rw [cost_countP, cost_free] at hcost
  have hle := credit_le hmem
  refine ⟨by omega, ?_⟩
  simp only [Paced, backoffs, List.map_cons, List.map_nil, List.mem_cons, List.not_mem_nil,
    or_false] at hmem'
  rcases hmem' with h | h | h | h | h | h | h <;> rw [h] <;> decide

end

/-- The exchange refuses the connection, and the process pauses before the next call. -/
def refused (seconds : Nat) : List Action :=
  [.task (.connect (.error "Connection refused")), .task .recv, .ended,
    .tick (seconds * second), .reconnect]

theorem reconnect_rate_refused : ∃ s : State, s.now = 31 * second ∧ s.backoff = 32 * second ∧
    91 * second * 5 ≤ 5 * s.now + 305 * second := by
  have hx : (run step (.init 0) ([1, 2, 4, 8, 16].flatMap refused)).map
      (fun s => (s.now, s.backoff)) = some (31 * second, 32 * second) := by decide +kernel
  obtain ⟨s, hs, he⟩ := Option.map_eq_some_iff.1 hx
  obtain ⟨hnow, hbackoff⟩ := Prod.mk.inj he
  have hcalm : ∀ b ∈ [1, 2, 4, 8, 16].flatMap refused, b ≠ Action.crash := by
    simp [refused]
  obtain ⟨hrate, -, -⟩ := reconnect_rate (run_nil : run step (.init 0) [] = some (.init 0)) hs hcalm
  exact ⟨s, hnow, hbackoff, hrate⟩

section
variable {s s' : State} {a : Action} {t t' : Task} {now : Nat} {b : Collector.Action}

/-! ## Connections -/

/-- The attempts to connect that are still to come, in units of `CONNECTION_TIMEOUT`: one of an
orphan that has not had its last, and of a call one each time its manager wakes up. -/
def Task.load (now : Nat) (t : Task) : Nat :=
  match t.rotation.loop, t.rotation.manager with
  | .stopped, .connecting => connectionTimeout
  | .stopped, .sleeping => connectionTimeout
  | .stopped, _ => 0
  | _, .connecting => 2 * connectionTimeout
  | _, .sending _ => connectionTimeout
  | _, .sleeping => 2 * connectionTimeout - (t.wakeAt - now)
  | _, .dead => 0

def isConnect : Collector.Action → Bool
  | .connect _ => true
  | _ => false

theorem load_stopped (h : t.rotation.loop = .stopped) (now' : Nat) :
    t.load now' = t.load now := by
  cases hm : t.rotation.manager <;> simp only [Task.load, h, hm]

/-- Something that arrives makes no difference. -/
theorem load_setConn {r : Collector.State} {o : Owner} {c : Conn} (h : r.conn o = some c) (c' : Conn)
    (wakeAt : Nat) : Task.load now ⟨r.setConn c' o, wakeAt⟩ = Task.load now ⟨r, wakeAt⟩ := by
  cases o with
  | manager =>
    cases hm : r.manager <;> simp only [State.conn, hm, reduceCtorEq] at h
    cases hl : r.loop <;> simp only [Task.load, Collector.State.setConn, hm, hl]
  | channel => rfl
  | loop =>
    cases hl : r.loop <;> simp only [State.conn, hl, reduceCtorEq] at h
    cases hm : r.manager <;> simp only [Task.load, Collector.State.setConn, hm, hl]

theorem load_stop {r : Collector.State} {wakeAt : Nat} (h : wakeAt ≤ now + connectionTimeout) :
    Task.load now ⟨r.stop, wakeAt⟩ ≤ Task.load now ⟨r, wakeAt⟩ := by
  cases hl : r.loop <;> cases hm : r.manager <;>
    simp only [Task.load, Collector.State.stop, hl, hm] <;> omega

/-- What a step of a call costs, and what it leaves alone. -/
structure Pays (now : Nat) (b : Collector.Action) (t t' : Task) : Prop where
  load : (if isConnect b then connectionTimeout else 0) + t'.load now ≤ t.load now
  wakeAt : t'.wakeAt ≤ now + connectionTimeout
  stopped : t.rotation.loop = .stopped → t'.rotation.loop = .stopped

theorem pays_connect {reply : Reply} {r : Collector.State}
    (hw : t.wakeAt ≤ now + connectionTimeout) (h : t.rotation.connect reply = some r) :
    Pays now (.connect reply) t { t with rotation := r } := by
  unfold State.connect at h
  split at h
  next hm =>
    cases reply <;> cases h <;> refine ⟨?_, hw, id⟩ <;> cases hl : t.rotation.loop <;>
      simp only [isConnect, Task.load, hl, hm, if_true] <;> omega
  next => cases h

theorem pays_send {r : Collector.State} (h : t.rotation.send = some r) :
    Pays now .send t ⟨r, now + connectionTimeout⟩ := by
  have hcost : isConnect .send = false := rfl
  unfold State.send at h
  split at h
  next c hm =>
    split at h
    next hl =>
      cases h
      refine ⟨?_, Nat.le_refl _, id⟩
      simp [hcost, Task.load, hl]
    next hl =>
      split at h
      · cases h
        refine ⟨?_, Nat.le_refl _, id⟩
        cases hl' : t.rotation.loop with
        | stopped => exact absurd hl' hl
        | starting =>
          simp only [hcost, Task.load, hl', hm, Bool.false_eq_true, if_false]
          omega
        | reading c =>
          simp only [hcost, Task.load, hl', hm, Bool.false_eq_true, if_false]
          omega
      · cases h
  next => cases h

theorem pays_wake {r : Collector.State} (hw : t.wakeAt ≤ now) (h : t.rotation.wake = some r) :
    Pays now .wake t { t with rotation := r } := by
  have hcost : isConnect .wake = false := rfl
  unfold State.wake at h
  split at h
  next hm =>
    cases h
    refine ⟨?_, by simp only; omega, id⟩
    cases hl : t.rotation.loop <;>
      simp only [hcost, Task.load, hl, hm, Bool.false_eq_true, if_false] <;> omega
  next => cases h

theorem pays_stop (hb : isConnect b = false) (hw : t.wakeAt ≤ now + connectionTimeout) :
    Pays now b t { t with rotation := t.rotation.stop } := by
  refine ⟨?_, hw, fun _ => rfl⟩
  simpa only [hb, Bool.false_eq_true, if_false, Nat.zero_add] using load_stop hw

/-- The loop goes on. -/
theorem pays_reading {c : Conn} {channel : Option Conn} {handled : List Nat}
    (hb : isConnect b = false) (hl : t.rotation.loop ≠ .stopped)
    (hw : t.wakeAt ≤ now + connectionTimeout) :
    Pays now b t { t with rotation := { t.rotation with loop := .reading c, channel, handled } } := by
  refine ⟨?_, hw, fun h => absurd h hl⟩
  cases hl' : t.rotation.loop with
  | stopped => exact absurd hl' hl
  | starting => cases hm : t.rotation.manager <;> simp [hb, Task.load, hl', hm]
  | reading c => cases hm : t.rotation.manager <;> simp [hb, Task.load, hl', hm]

theorem pays_recv {r : Collector.State} (hw : t.wakeAt ≤ now + connectionTimeout)
    (h : t.rotation.recv = some r) : Pays now .recv t { t with rotation := r } := by
  unfold State.recv at h
  split at h
  next => cases h
  next hl =>
    split at h
    · cases h
      exact pays_reading rfl hl hw
    · split at h
      · cases h
        exact pays_stop rfl hw
      · cases h

theorem pays_next {r : Collector.State} (hw : t.wakeAt ≤ now + connectionTimeout)
    (h : t.rotation.next = some r) : Pays now .next t { t with rotation := r } := by
  unfold State.next at h
  split at h
  next read hl =>
    have hne : t.rotation.loop ≠ .stopped := by simp [hl]
    split at h
    · cases h
      exact pays_reading rfl hne hw
    · cases h
      exact pays_reading rfl hne hw
    · cases h
      exact pays_stop rfl hw
    · split at h
      · cases h
        exact pays_stop rfl hw
      · cases h
  next => cases h

theorem pays_step (hw : t.wakeAt ≤ now + connectionTimeout) (h : t.step now b = some t') :
    Pays now b t t' := by
  cases b with
  | emit => cases h
  | arrive o x =>
    obtain ⟨r, hr, rfl⟩ := Option.map_eq_some_iff.1 h
    obtain ⟨c, hc, hr⟩ := Option.bind_eq_some_iff.1 hr
    obtain ⟨c', -, rfl⟩ := Option.map_eq_some_iff.1 hr
    refine ⟨?_, hw, fun hl => ?_⟩
    · have hload : Task.load now ⟨t.rotation.setConn c' o, t.wakeAt⟩ = t.load now :=
        load_setConn hc c' t.wakeAt
      simp only [isConnect, Bool.false_eq_true, if_false, hload]
      omega
    · cases o with
      | loop => simp [State.conn, hl] at hc
      | _ => exact hl
  | connect reply =>
    obtain ⟨r, hr, rfl⟩ := Option.map_eq_some_iff.1 h
    exact pays_connect hw hr
  | send =>
    obtain ⟨r, hr, rfl⟩ := Option.map_eq_some_iff.1 h
    exact pays_send hr
  | wake =>
    simp only [Task.step] at h
    split at h
    · obtain ⟨r, hr, rfl⟩ := Option.map_eq_some_iff.1 h
      exact pays_wake ‹_› hr
    · cases h
  | recv =>
    obtain ⟨r, hr, rfl⟩ := Option.map_eq_some_iff.1 h
    exact pays_recv hw hr
  | next =>
    obtain ⟨r, hr, rfl⟩ := Option.map_eq_some_iff.1 h
    exact pays_next hw hr

/-- No sleep is longer than `CONNECTION_TIMEOUT`, and the calls that are over have stopped. -/
structure Orderly (s : State) : Prop where
  wakeAt : ∀ t ∈ s.task :: s.orphans, t.wakeAt ≤ s.now + connectionTimeout
  orphans : ∀ t ∈ s.orphans, t.rotation.loop = .stopped
  sleeping : ∀ wakeAt, s.phase = .sleeping wakeAt → s.task.rotation.loop = .stopped

theorem orderly_init (emitted : Nat) : Orderly (.init emitted) := by
  refine ⟨fun t ht => ?_, nofun, nofun⟩
  rw [List.mem_singleton.1 ht]
  exact Nat.zero_le _

/-- What is still to come of all calls. -/
def State.load (s : State) : Nat := s.task.load s.now + (s.orphans.map (Task.load s.now)).sum

def Action.isConnect : Action → Bool
  | task a => Supervisor.isConnect a
  | orphan _ a => Supervisor.isConnect a
  | _ => false

/-- A call of `the_big_loop`. -/
def Action.isCall : Action → Bool
  | reconnect => true
  | crash => true
  | _ => false

/-- What a step costs, brings in and keeps. -/
structure Balances (s : State) (a : Action) (s' : State) : Prop where
  orderly : Orderly s'
  load : (if a.isConnect then connectionTimeout else 0) + s'.load + s.now ≤
    s.load + s'.now + if a.isCall then 2 * connectionTimeout else 0

theorem load_new (emitted : Nat) : (Task.new emitted).load now = 2 * connectionTimeout := rfl

/-- Only a call whose loop runs gets more to do with time. -/
theorem load_tick (now d : Nat) (t : Task) : t.load (now + d) ≤ t.load now + d := by
  unfold Task.load
  split <;> omega

theorem balances_tick (h : Orderly s) (d : Nat) :
    Balances s (.tick d) { s with now := s.now + d } := by
  refine ⟨⟨fun t ht => ?_, h.orphans, h.sleeping⟩, ?_⟩
  · have := h.wakeAt t ht
    simp only
    omega
  · have horphans : s.orphans.map (Task.load (s.now + d)) = s.orphans.map (Task.load s.now) :=
      List.map_congr_left fun t ht => load_stopped (h.orphans t ht) _
    have := load_tick s.now d s.task
    simp only [State.load, horphans, Action.isConnect, Action.isCall, Bool.false_eq_true, if_false]
    omega

theorem load_emit (t : Task) : t.emit.load now = t.load now := rfl

theorem balances_emit (h : Orderly s) :
    Balances s .emit { s with task := s.task.emit, orphans := s.orphans.map Task.emit } := by
  refine ⟨⟨fun t ht => ?_, fun t ht => ?_, h.sleeping⟩, ?_⟩
  · rcases List.mem_cons.1 ht with rfl | ht
    · exact h.wakeAt s.task List.mem_cons_self
    · obtain ⟨u, hu, rfl⟩ := List.mem_map.1 ht
      exact h.wakeAt u (List.mem_cons_of_mem _ hu)
  · obtain ⟨u, hu, rfl⟩ := List.mem_map.1 ht
    exact h.orphans u hu
  · have horphans : (s.orphans.map Task.emit).map (Task.load s.now) =
        s.orphans.map (Task.load s.now) := by
      rw [List.map_map]
      exact List.map_congr_left fun t _ => load_emit t
    simp only [State.load, horphans, load_emit, Action.isConnect, Action.isCall, Bool.false_eq_true,
      if_false]
    omega

theorem balances_task (h : Orderly s) (ht : s.task.step s.now b = some t') :
    Balances s (.task b) { s with task := t' } := by
  have hp := pays_step (h.wakeAt _ List.mem_cons_self) ht
  refine ⟨⟨fun t hm => ?_, h.orphans, fun u hu => hp.stopped (h.sleeping u hu)⟩, ?_⟩
  · rcases List.mem_cons.1 hm with rfl | hm
    · exact hp.wakeAt
    · exact h.wakeAt t (List.mem_cons_of_mem _ hm)
  · have : (if (Action.task b).isConnect then connectionTimeout else 0) + t'.load s.now ≤
        s.task.load s.now := hp.load
    simp only [State.load, Action.isCall, Bool.false_eq_true, if_false]
    omega

theorem balances_orphan (h : Orderly s) {i : Nat} (hi : s.orphans[i]? = some t)
    (ht : t.step s.now b = some t') :
    Balances s (.orphan i b) { s with orphans := s.orphans.set i t' } := by
  have hmem := List.mem_of_getElem? hi
  have hp := pays_step (h.wakeAt t (List.mem_cons_of_mem _ hmem)) ht
  refine ⟨⟨fun u hu => ?_, fun u hu => ?_, h.sleeping⟩, ?_⟩
  · rcases List.mem_cons.1 hu with rfl | hu
    · exact h.wakeAt s.task List.mem_cons_self
    · rcases List.mem_or_eq_of_mem_set hu with hu | rfl
      · exact h.wakeAt u (List.mem_cons_of_mem _ hu)
      · exact hp.wakeAt
  · rcases List.mem_or_eq_of_mem_set hu with hu | rfl
    · exact h.orphans u hu
    · exact hp.stopped (h.orphans t hmem)
  · have h₁ : (if (Action.orphan i b).isConnect then connectionTimeout else 0) + t'.load s.now ≤
        t.load s.now := hp.load
    have h₂ := sum_map_set (Task.load s.now) (y := t') hi
    simp only [State.load, Action.isCall, Bool.false_eq_true, if_false]
    omega

theorem balances_reconnect (h : Orderly s) (hs : s.reconnect = some s') :
    Balances s .reconnect s' := by
  unfold State.reconnect at hs
  split at hs
  · cases hs
  next wakeAt hp =>
    split at hs
    · cases hs
      refine ⟨⟨fun t ht => ?_, fun t ht => ?_, nofun⟩, ?_⟩
      · rcases List.mem_cons.1 ht with rfl | ht
        · exact Nat.zero_le _
        · rcases List.mem_append.1 ht with ht | ht
          · exact h.wakeAt t (List.mem_cons_of_mem _ ht)
          · rw [List.mem_singleton.1 ht]
            exact h.wakeAt s.task List.mem_cons_self
      · rcases List.mem_append.1 ht with ht | ht
        · exact h.orphans t ht
        · rw [List.mem_singleton.1 ht]
          exact h.sleeping wakeAt hp
      · simp only [State.load, load_new, List.map_append, List.map_cons, List.map_nil,
          List.sum_append, List.sum_cons, List.sum_nil, Action.isConnect, Action.isCall,
          Bool.false_eq_true, if_false, if_true]
        omega
    · cases hs

theorem balances_crash : Balances s .crash s.crash := by
  refine ⟨⟨fun t ht => ?_, nofun, nofun⟩, ?_⟩
  · rw [List.mem_singleton.1 ht]
    exact Nat.zero_le _
  · simp only [State.load, State.crash, load_new, List.map_nil, List.sum_nil, Action.isConnect,
      Action.isCall, Bool.false_eq_true, if_false, if_true]
    omega

theorem balances_step (h : Orderly s) (hs : step s a = some s') : Balances s a s' := by
  cases a with
  | tick d =>
    cases hs
    exact balances_tick h d
  | emit =>
    cases hs
    exact balances_emit h
  | task b =>
    obtain ⟨t, ht, rfl⟩ := Option.map_eq_some_iff.1 hs
    exact balances_task h ht
  | orphan i b =>
    obtain ⟨t, hi, hs⟩ := Option.bind_eq_some_iff.1 hs
    obtain ⟨t', ht, rfl⟩ := Option.map_eq_some_iff.1 hs
    exact balances_orphan h hi ht
  | ended =>
    simp only [step, State.ended] at hs
    split at hs
    next started hp hl =>
      cases hs
      refine ⟨⟨h.wakeAt, h.orphans, fun _ _ => hl⟩, ?_⟩
      simp only [State.load, Action.isConnect, Action.isCall, Bool.false_eq_true, if_false]
      omega
    next => cases hs
  | reconnect => exact balances_reconnect h hs
  | crash =>
    cases hs
    exact balances_crash

/-- **What orphaned managers add**: in every run of the process, the attempts to connect to the
exchange are at most two for each call of `the_big_loop` and one more for every twenty hours. -/
theorem connects_bounded {emitted : Nat} {as : List Action}
    (hr : run step (.init emitted) as = some s) :
    connectionTimeout * as.countP Action.isConnect ≤
      2 * connectionTimeout * (1 + as.countP Action.isCall) + s.now := by
  have hw : ∀ (s : State) (a : Action) (s' : State), True → Orderly s → step s a = some s' →
      ((if a.isConnect then connectionTimeout else 0 : Nat) : Int) + (s'.load - s'.now) ≤
        s.load - s.now + (if a.isCall then 2 * connectionTimeout else 0 : Nat) :=
    fun s a s' _ h hs => by
      have := (balances_step h hs).load
      omega
  have hcost := run_cost (fun _ _ _ _ h hs => (balances_step h hs).orderly) hw
    (fun _ _ => trivial) (orderly_init emitted) hr
  have hinit : (State.init emitted).load = 2 * connectionTimeout := by
    simp [State.load, State.init, load_new]
  have hnow : (State.init emitted).now = 0 := rfl
  rw [cost_countP, cost_countP, hinit, hnow] at hcost
  rw [Nat.mul_add, Nat.mul_one]
  omega

end

/-- The exchange closes the stream, and the orphaned manager connects once more. -/
def orphaned : List Action :=
  [.task (.connect (.ok ())), .task .send, .task .recv, .task (.arrive .loop .close), .task .next,
    .ended, .tick second, .reconnect, .task (.connect (.ok ())), .tick connectionTimeout,
    .orphan 0 .wake, .orphan 0 (.connect (.ok ())), .orphan 0 .send]

theorem connects_bounded_orphaned : ∃ s : State, s.now = connectionTimeout + second ∧
    connectionTimeout * 3 ≤ 2 * connectionTimeout * 2 + s.now := by
  have hx : (run step (.init 0) orphaned).map State.now = some (connectionTimeout + second) := by
    decide +kernel
  obtain ⟨s, hs, hnow⟩ := Option.map_eq_some_iff.1 hx
  exact ⟨s, hnow, connects_bounded hs⟩

end Collector.Supervisor
