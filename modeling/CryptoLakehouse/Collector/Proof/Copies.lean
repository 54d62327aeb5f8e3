import CryptoLakehouse.Collector.Proof.Rotation
import CryptoLakehouse.Collector.Supervisor

/-!
# How many copies of a trade

A trade is delivered on every connection that is open when it is emitted, and the collector may read
several of them one after the other. What is handled of a trade and what its connections may still
bring add up to at most three: one of the manager, one of the channel and one of the loop (`copies`).
A later call of `the_big_loop` has later connections only, and an orphan's is never read, so that this
bounds what the whole process handles (`handled_at_most_thrice`).
-/

namespace Collector

section
variable {r r' : Collector.State} {c c' : Conn} {o : Owner} {t : Nat}

/-! ## What is still to come -/

/-- How often a connection may still bring the trade. -/
def Conn.owed (c : Conn) (t : Nat) : Nat :=
  c.queue.count (.text t) + if c.arrived ≤ t then 1 else 0

def owedBy (r : Collector.State) (t : Nat) (o : Owner) : Nat :=
  match r.conn o with
  | some c => c.owed t
  | none => 0

/-- The copies of a trade that are handled or still to come. -/
def copies (r : Collector.State) (t : Nat) : Nat :=
  r.handled.count t + owedBy r t .manager + owedBy r t .channel + owedBy r t .loop

theorem owedBy_some (h : r.conn o = some c) : owedBy r t o = c.owed t := by
  simp only [owedBy, h]

theorem owed_establish {n : Nat} (h : t < n) : (Conn.establish n).owed t = 0 := by
  have hn : ¬n ≤ t := by omega
  simp [Conn.owed, Conn.establish, hn]

/-- Of a trade that no connection was sent yet, each brings one. -/
theorem owedBy_le_one (h : Inv r) (ht : r.emitted ≤ t) (o : Owner) : owedBy r t o ≤ 1 := by
  cases hc : r.conn o with
  | none => simp [owedBy, hc]
  | some c =>
    obtain ⟨-, hle, -, hwait⟩ := h o c hc
    have hq : c.queue.count (.text t) = 0 := List.count_eq_zero.2 fun hm => by
      have := (hwait t hm).2
      omega
    rw [owedBy_some hc, Conn.owed, hq]
    split <;> omega

/-- What arrives was to come. -/
theorem owed_arrive {n : Nat} {x : Arrival} (h : c.arrive n x = some c') : c'.owed t = c.owed t := by
  unfold Conn.arrive at h
  split at h
  · cases h
  cases x with
  | trade =>
    simp only at h
    split at h
    · cases h
      simp only [Conn.owed, List.count_append, List.count_singleton]
      by_cases hx : c.arrived = t
      · subst hx
        simp
      · have hne : ¬(Frame.text c.arrived == Frame.text t) = true := by simpa using hx
        rw [if_neg hne]
        split <;> split <;> omega
    · cases h
  | other =>
    cases h
    simp [Conn.owed]
  | error =>
    cases h
    simp [Conn.owed]
  | close =>
    cases h
    rfl

/-! ## Steps -/

/-- What a step of the call does: nothing is emitted, what is handled was in the loop's queue, and no
trade gets more copies. -/
structure Spends (r r' : Collector.State) : Prop where
  emitted : r'.emitted = r.emitted
  handled : ∀ t ∈ r'.handled, t ∈ r.handled ∨ ∃ c, r.conn .loop = some c ∧ .text t ∈ c.queue
  copies : ∀ t < r.emitted, copies r' t ≤ copies r t

/-- Nothing is handled. -/
theorem Spends.of_same (he : r'.emitted = r.emitted) (hh : r'.handled = r.handled)
    (hc : ∀ t < r.emitted, owedBy r' t .manager + owedBy r' t .channel + owedBy r' t .loop ≤
      owedBy r t .manager + owedBy r t .channel + owedBy r t .loop) : Spends r r' where
  emitted := he
  handled t ht := .inl (hh ▸ ht)
  copies t ht := by
    have := hc t ht
    simp only [Collector.copies, hh]
    omega

theorem spends_arrive {x : Arrival} (hc : r.conn o = some c)
    (ha : c.arrive r.emitted x = some c') : Spends r (r.setConn c' o) := by
  have hall : ∀ t o', owedBy (r.setConn c' o) t o' = owedBy r t o' := fun t o' => by
    by_cases ho : o' = o
    · subst ho
      rw [owedBy_some setConn_conn, owedBy_some hc, owed_arrive ha]
    · simp only [owedBy, setConn_conn_of_ne ho]
  refine .of_same ?_ ?_ fun t _ => ?_
  · cases o <;> rfl
  · cases o <;> rfl
  · exact Nat.le_of_eq (by rw [hall, hall, hall])

theorem spends_connect {reply : Reply} (h : r.connect reply = some r') : Spends r r' := by
  unfold State.connect at h
  split at h
  next hm =>
    have hnone : ∀ t, owedBy r t .manager = 0 := fun t => by simp only [owedBy, State.conn, hm]
    cases reply with
    | ok _ =>
      cases h
      refine .of_same rfl rfl fun t ht => ?_
      have hnew := owed_establish ht
      simp only [owedBy, State.conn, hnew]
      omega
    | error _ =>
      cases h
      refine .of_same rfl rfl fun t _ => ?_
      exact Nat.le_of_eq (by rw [hnone t]; rfl)
  next => cases h

theorem spends_send (h : r.send = some r') : Spends r r' := by
  unfold State.send at h
  split at h
  next c hm =>
    split at h
    · cases h
      refine .of_same rfl rfl fun t _ => ?_
      simp only [owedBy, State.conn]
      omega
    · split at h
      next hch =>
        cases h
        refine .of_same rfl rfl fun t _ => ?_
        simp only [owedBy, State.conn, hm, hch]
        omega
      next => cases h
  next => cases h

theorem spends_wake (h : r.wake = some r') : Spends r r' := by
  unfold State.wake at h
  split at h
  · cases h
    refine .of_same rfl rfl fun t _ => ?_
    simp only [owedBy, State.conn]
    omega
  · cases h

theorem spends_stop : Spends r r.stop := by
  refine .of_same rfl rfl fun t _ => ?_
  simp only [owedBy, State.conn, State.stop]
  omega

theorem spends_recv (h : r.recv = some r') : Spends r r' := by
  unfold State.recv at h
  split at h
  · cases h
  · split at h
    next c hch =>
      cases h
      refine .of_same rfl rfl fun t _ => ?_
      simp only [owedBy, State.conn, hch]
      omega
    next =>
      split at h
      · cases h
        exact spends_stop
      · cases h

theorem spends_next (h : r.next = some r') : Spends r r' := by
  unfold State.next at h
  split at h
  next read hl =>
    have hconn : r.conn .loop = some read := by rw [State.conn, hl]
    split at h
    next trade queue hq =>
      -- The copy that was to come is handled.
      cases h
      refine ⟨rfl, fun t ht => ?_, fun t _ => ?_⟩
      · rcases List.mem_append.1 ht with ht | ht
        · exact .inl ht
        · rw [List.mem_singleton.1 ht]
          exact .inr ⟨read, hconn, by rw [hq]; exact List.mem_cons_self⟩
      · have hloop : owedBy r t .loop = read.owed t := owedBy_some hconn
        simp only [copies, hloop, Conn.owed, hq, List.count_append, List.count_cons,
          List.count_nil]
        simp only [owedBy, State.conn, Conn.owed]
        by_cases hx : trade = t
        · subst hx
          simp only [beq_self_eq_true, if_true]
          omega
        · have h₁ : (trade == t) = false := by simpa using hx
          have h₂ : (Frame.text trade == Frame.text t) = false := by simpa using hx
          simp only [h₁, h₂, Bool.false_eq_true, if_false]
          omega
    next queue hq =>
      cases h
      refine .of_same rfl rfl fun t _ => ?_
      have hloop : owedBy r t .loop = read.owed t := owedBy_some hconn
      simp only [hloop, Conn.owed, hq, List.count_cons]
      simp only [owedBy, State.conn, Conn.owed]
      omega
    next =>
      cases h
      exact spends_stop
    next =>
      split at h
      · cases h
        exact spends_stop
      · cases h
  next => cases h

theorem spends_step {a : Action} (ha : a ≠ .emit) (h : step r a = some r') : Spends r r' := by
  cases a with
  | emit => exact absurd rfl ha
  | arrive o x =>
    obtain ⟨c, hc, h⟩ := Option.bind_eq_some_iff.1 h
    obtain ⟨c', ha, rfl⟩ := Option.map_eq_some_iff.1 h
    exact spends_arrive hc ha
  | connect reply => exact spends_connect h
  | send => exact spends_send h
  | wake => exact spends_wake h
  | recv => exact spends_recv h
  | next => exact spends_next h

end

end Collector

namespace Collector.Supervisor

section
variable {s s' : State} {a : Action}

/-! ## The process -/

/-- A step of a call is a step of its rotation. -/
theorem rotation_of_step {now : Nat} {t t' : Task} {b : Collector.Action}
    (h : t.step now b = some t') : Collector.step t.rotation b = some t'.rotation ∧ b ≠ .emit := by
  cases b with
  | emit => cases h
  | wake =>
    simp only [Task.step] at h
    split at h
    · obtain ⟨r, hr, rfl⟩ := Option.map_eq_some_iff.1 h
      exact ⟨hr, nofun⟩
    · cases h
  | _ =>
    obtain ⟨r, hr, rfl⟩ := Option.map_eq_some_iff.1 h
    exact ⟨hr, nofun⟩

/-- The invariant: what is handled was emitted, in at most three copies together with those still to
come. -/
structure Few (s : State) : Prop where
  inv : Inv s.task.rotation
  emitted : ∀ t ∈ s.handled, t < s.task.rotation.emitted
  copies : ∀ t < s.task.rotation.emitted, s.past.count t + copies s.task.rotation t ≤ 3

theorem few_init (emitted : Nat) : Few (.init emitted) :=
  ⟨inv_init emitted, nofun, fun _ _ => Nat.zero_le 3⟩

/-- A trade that is emitted has no copies yet but those to come. -/
theorem few_emit (h : Few s) :
    Few { s with task := s.task.emit, orphans := s.orphans.map Task.emit } := by
  have hstep : Collector.step s.task.rotation .emit = some s.task.emit.rotation := rfl
  refine ⟨h.inv.step hstep, fun t ht => Nat.lt_succ_of_lt (h.emitted t ht), fun t ht => ?_⟩
  show s.past.count t + Collector.copies s.task.rotation t ≤ 3
  by_cases hlt : t < s.task.rotation.emitted
  · exact h.copies t hlt
  · have hx : t ∉ s.handled := fun ht => hlt (h.emitted t ht)
    rw [State.handled, List.mem_append, not_or] at hx
    have h₁ := owedBy_le_one h.inv (Nat.not_lt.1 hlt) .manager
    have h₂ := owedBy_le_one h.inv (Nat.not_lt.1 hlt) .channel
    have h₃ := owedBy_le_one h.inv (Nat.not_lt.1 hlt) .loop
    rw [Collector.copies, List.count_eq_zero.2 hx.1, List.count_eq_zero.2 hx.2]
    omega

theorem few_task {t' : Task} {b : Collector.Action} (h : Few s)
    (ht : s.task.step s.now b = some t') : Few { s with task := t' } := by
  obtain ⟨hr, hb⟩ := rotation_of_step ht
  obtain ⟨he, hh, hc⟩ := spends_step hb hr
  refine ⟨h.inv.step hr, fun t hm => ?_, fun t hlt => ?_⟩
  · show t < t'.rotation.emitted
    rw [he]
    rcases List.mem_append.1 hm with hm | hm
    · exact h.emitted t (List.mem_append_left _ hm)
    · rcases hh t hm with hm | ⟨c, hconn, hq⟩
      · exact h.emitted t (List.mem_append_right _ hm)
      · obtain ⟨-, hle, -, hwait⟩ := h.inv .loop c hconn
        exact Nat.lt_of_lt_of_le (hwait t hq).2 hle
  · have hlt : t < s.task.rotation.emitted := he ▸ hlt
    have := hc t hlt
    have := h.copies t hlt
    show s.past.count t + Collector.copies t'.rotation t ≤ 3
    omega

/-- A new call has everything still to come. -/
theorem few_call (h : Few s) (hp : s'.past = s.handled)
    (ht : s'.task = .new s.task.rotation.emitted) : Few s' := by
  have hnew : s'.handled = s.handled := by
    rw [State.handled, hp, ht]
    exact List.append_nil _
  refine ⟨ht ▸ inv_init _, fun t hm => ?_, fun t hlt => ?_⟩
  · rw [ht]
    exact h.emitted t (hnew ▸ hm)
  · have hlt : t < s.task.rotation.emitted := by rwa [ht] at hlt
    have := h.copies t hlt
    have hnone : Collector.copies s'.task.rotation t = 0 := by rw [ht]; rfl
    rw [hp, hnone, State.handled, List.count_append]
    unfold Collector.copies at this
    omega

theorem few_step (h : Few s) (hs : step s a = some s') : Few s' := by
  cases a with
  | tick d =>
    cases hs
    exact ⟨h.inv, h.emitted, h.copies⟩
  | emit =>
    cases hs
    exact few_emit h
  | task b =>
    obtain ⟨t, ht, rfl⟩ := Option.map_eq_some_iff.1 hs
    exact few_task h ht
  | orphan i b =>
    obtain ⟨t, -, hs⟩ := Option.bind_eq_some_iff.1 hs
    obtain ⟨t', -, rfl⟩ := Option.map_eq_some_iff.1 hs
    exact ⟨h.inv, h.emitted, h.copies⟩
  | ended =>
    simp only [step, State.ended] at hs
    split at hs
    · cases hs
      exact ⟨h.inv, h.emitted, h.copies⟩
    · cases hs
  | reconnect =>
    simp only [step, State.reconnect] at hs
    split at hs
    · cases hs
    · split at hs
      · cases hs
        exact few_call h rfl rfl
      · cases hs
  | crash =>
    cases hs
    exact few_call h rfl rfl

/-- **At most three copies**: in every run of the process, with any rotations, reconnects and
crashes, no trade is handled more than three times, and none that the exchange has not emitted. -/
theorem handled_at_most_thrice {emitted : Nat} {as : List Action}
    (hr : Machine.run step (.init emitted) as = some s) (t : Nat) :
    s.handled.count t ≤ 3 ∧ (t ∈ s.handled → t < s.task.rotation.emitted) := by
  have hfew : Few s := Machine.run_inv (fun _ _ _ h hs => few_step h hs) (few_init emitted) hr
  refine ⟨?_, hfew.emitted t⟩
  by_cases hm : t ∈ s.handled
  · have := hfew.copies t (hfew.emitted t hm)
    rw [State.handled, List.count_append]
    unfold Collector.copies at this
    omega
  · rw [List.count_eq_zero.2 hm]
    exact Nat.zero_le 3

end

/-- While one stream is read, the next waits in the channel and another one to get there; the trade
comes on all three. -/
def threeStreams : List Action :=
  [.task (.connect (.ok ())), .task .send, .task .recv, .tick connectionTimeout, .task .wake,
    .task (.connect (.ok ())), .task .send, .tick connectionTimeout, .task .wake,
    .task (.connect (.ok ())), .emit, .task (.arrive .loop .trade), .task (.arrive .channel .trade),
    .task (.arrive .manager .trade), .task .next, .task .recv, .task .next, .task .send,
    .task .recv, .task .next]

theorem handled_at_most_thrice_streams : ∃ s : State, s.handled = [0, 0, 0] ∧
    s.handled.count 0 ≤ 3 ∧ 0 < s.task.rotation.emitted := by
  have hx : (Machine.run step (.init 0) threeStreams).map State.handled = some [0, 0, 0] := by
    decide +kernel
  obtain ⟨s, hs, hh⟩ := Option.map_eq_some_iff.1 hx
  obtain ⟨hle, hlt⟩ := handled_at_most_thrice hs 0
  exact ⟨s, hh, hle, hlt (by rw [hh]; exact List.mem_cons_self)⟩

end Collector.Supervisor
