import CryptoLakehouse.Collector.Rotation
import CryptoLakehouse.Lib.Machine

/-!
# What a rotation loses

The invariant (`Inv`): of every connection there is, each trade that arrived is handled or waits in
its queue. `read = r` drops the old stream with its queue, and `select!` may take that branch while
trades wait there. `rotation_keeps_iff`: a run loses no trade in its rotations exactly if the old
stream is drained, up to where the new one begins, whenever it is replaced.
-/

namespace Collector

open Machine

section
variable {s s' : State} {a : Action} {o : Owner} {c c' : Conn} {n : Nat} {t : Nat}

/-! ## Connections -/

/-- A connection has delivered the trades from `since` on up to `arrived`, and those that are not
handled wait in its queue. -/
structure Conn.Delivers (c : Conn) (emitted : Nat) (handled : List Nat) : Prop where
  since_le : c.since ≤ c.arrived
  le_emitted : c.arrived ≤ emitted
  kept : ∀ t, c.since ≤ t → t < c.arrived → t ∈ handled ∨ .text t ∈ c.queue
  waiting : ∀ t, .text t ∈ c.queue → c.since ≤ t ∧ t < c.arrived

theorem delivers_establish (n : Nat) (handled : List Nat) :
    (Conn.establish n).Delivers n handled where
  since_le := Nat.le_refl _
  le_emitted := Nat.le_refl _
  kept _ h h' := absurd h' (Nat.not_lt.2 h)
  waiting _ h := absurd h List.not_mem_nil

theorem Conn.Delivers.mono {handled handled' : List Nat} {m : Nat} (h : c.Delivers n handled)
    (hn : n ≤ m) (hh : ∀ t ∈ handled, t ∈ handled') : c.Delivers m handled' where
  since_le := h.since_le
  le_emitted := Nat.le_trans h.le_emitted hn
  kept t h1 h2 := (h.kept t h1 h2).imp (hh t) id
  waiting := h.waiting

/-- A frame without a trade. -/
theorem Conn.Delivers.receive {handled : List Nat} {f : Frame} (h : c.Delivers n handled)
    (hf : ∀ t, f ≠ .text t) : Delivers { c with queue := c.queue ++ [f] } n handled where
  since_le := h.since_le
  le_emitted := h.le_emitted
  kept t h1 h2 := (h.kept t h1 h2).imp id (List.mem_append_left _)
  waiting t ht := by
    simp only [List.mem_append, List.mem_singleton] at ht
    rcases ht with ht | ht
    · exact h.waiting t ht
    · exact absurd ht.symm (hf t)

/-- The next trade. -/
theorem Conn.Delivers.deliver {handled : List Nat} (h : c.Delivers n handled) (hn : c.arrived < n) :
    Delivers { c with arrived := c.arrived + 1, queue := c.queue ++ [.text c.arrived] } n
      handled where
  since_le := Nat.le_succ_of_le h.since_le
  le_emitted := hn
  kept t h1 h2 := by
    by_cases hlt : t < c.arrived
    · exact (h.kept t h1 hlt).imp id (List.mem_append_left _)
    · obtain rfl : t = c.arrived := by
        simp only at h2
        omega
      exact .inr (by simp)
  waiting t ht := by
    have hle := h.since_le
    simp only [List.mem_append, List.mem_singleton, Frame.text.injEq] at ht
    rcases ht with ht | rfl
    · have := h.waiting t ht
      simp only
      omega
    · simp only
      omega

theorem Conn.Delivers.arrive {handled : List Nat} {x : Arrival} (h : c.Delivers n handled)
    (ha : c.arrive n x = some c') : c'.Delivers n handled := by
  unfold Conn.arrive at ha
  split at ha
  · cases ha
  cases x with
  | trade =>
    simp only at ha
    split at ha
    · cases ha
      exact h.deliver ‹_›
    · cases ha
  | other =>
    cases ha
    exact h.receive (by simp)
  | error =>
    cases ha
    exact h.receive (by simp)
  | close =>
    cases ha
    exact ⟨h.since_le, h.le_emitted, h.kept, h.waiting⟩

/-- `c` with its first frame read is `c'`. -/
structure Conn.Reads (c c' : Conn) (handled : List Nat) : Prop where
  since : c'.since = c.since
  arrived : c'.arrived = c.arrived
  queue : ∃ f, c.queue = f :: c'.queue ∧ ∀ t, f = .text t → t ∈ handled

theorem Conn.Delivers.read {handled : List Nat} (h : c.Delivers n handled)
    (hr : c.Reads c' handled) : c'.Delivers n handled := by
  obtain ⟨f, hq, hf⟩ := hr.queue
  refine ⟨hr.since ▸ hr.arrived ▸ h.since_le, hr.arrived ▸ h.le_emitted, fun t h1 h2 => ?_,
    fun t ht => ?_⟩
  · rw [hr.since] at h1
    rw [hr.arrived] at h2
    rcases h.kept t h1 h2 with hk | hk
    · exact .inl hk
    · rw [hq] at hk
      rcases List.mem_cons.1 hk with he | hk
      · exact .inl (hf t he.symm)
      · exact .inr hk
  · rw [hr.since, hr.arrived]
    exact h.waiting t (hq ▸ List.mem_cons_of_mem _ ht)

/-! ## Steps -/

/-- Where the connections after a step come from. -/
inductive Origin (s s' : State) (c' : Conn) : Prop
  | same {o : Owner} (h : s.conn o = some c')
  | arrived {o : Owner} {c : Conn} {x : Arrival} (h : s.conn o = some c)
      (ha : c.arrive s.emitted x = some c')
  | established (h : c' = .establish s.emitted)
  | read {c : Conn} (h : s.conn .loop = some c) (hr : c.Reads c' s'.handled)

/-- **What a step does**: trades are emitted and handled, never taken back, and each connection
comes from one. -/
structure Steps (s s' : State) : Prop where
  emitted : s.emitted ≤ s'.emitted
  handled : ∀ t ∈ s.handled, t ∈ s'.handled
  conn : ∀ o c', s'.conn o = some c' → Origin s s' c'

/-- A step that only moves or drops connections. -/
theorem Steps.of_same (he : s'.emitted = s.emitted) (hh : s'.handled = s.handled)
    (hc : ∀ o c, s'.conn o = some c → ∃ o', s.conn o' = some c) : Steps s s' where
  emitted := he ▸ Nat.le_refl _
  handled := hh ▸ fun _ ht => ht
  conn o c h := by
    obtain ⟨o', h'⟩ := hc o c h
    exact .same h'

@[simp] theorem setConn_conn : (s.setConn c o).conn o = some c := by cases o <;> rfl

/-- The other connections. -/
theorem setConn_conn_of_ne {o' : Owner} (h : o' ≠ o) : (s.setConn c o).conn o' = s.conn o' := by
  cases o <;> cases o' <;> first | rfl | exact absurd rfl h

theorem steps_arrive {x : Arrival} (hc : s.conn o = some c) (ha : c.arrive s.emitted x = some c') :
    Steps s (s.setConn c' o) where
  emitted := by cases o <;> exact Nat.le_refl _
  handled := by cases o <;> exact fun _ ht => ht
  conn o' d hd := by
    by_cases ho : o' = o
    · subst ho
      rw [setConn_conn] at hd
      cases hd
      exact .arrived hc ha
    · rw [setConn_conn_of_ne ho] at hd
      exact .same hd

theorem steps_connect {reply : Reply} (h : s.connect reply = some s') : Steps s s' := by
  unfold State.connect at h
  split at h
  · cases reply with
    | ok _ =>
      cases h
      refine ⟨Nat.le_refl _, fun _ ht => ht, fun o c hc => ?_⟩
      cases o with
      | manager =>
        cases hc
        exact .established rfl
      | channel => exact .same (o := .channel) hc
      | loop => exact .same (o := .loop) hc
    | error _ =>
      cases h
      refine .of_same rfl rfl fun o c hc => ?_
      cases o with
      | manager => cases hc
      | channel => exact ⟨.channel, hc⟩
      | loop => exact ⟨.loop, hc⟩
  · cases h

theorem steps_send (h : s.send = some s') : Steps s s' := by
  unfold State.send at h
  split at h
  · rename_i c hm
    have hconn : s.conn .manager = some c := by rw [State.conn, hm]
    split at h
    · cases h
      refine .of_same rfl rfl fun o d hd => ?_
      cases o with
      | manager => cases hd
      | channel => exact ⟨.channel, hd⟩
      | loop => exact ⟨.loop, hd⟩
    · split at h
      · cases h
        refine .of_same rfl rfl fun o d hd => ?_
        cases o with
        | manager => cases hd
        | channel =>
          cases hd
          exact ⟨.manager, hconn⟩
        | loop => exact ⟨.loop, hd⟩
      · cases h
  · cases h

theorem steps_wake (h : s.wake = some s') : Steps s s' := by
  unfold State.wake at h
  split at h
  · cases h
    refine .of_same rfl rfl fun o d hd => ?_
    cases o with
    | manager => cases hd
    | channel => exact ⟨.channel, hd⟩
    | loop => exact ⟨.loop, hd⟩
  · cases h

theorem steps_stop : Steps s s.stop := by
  refine .of_same rfl rfl fun o d hd => ?_
  cases o with
  | manager => exact ⟨.manager, hd⟩
  | channel => cases hd
  | loop => cases hd

theorem steps_recv (h : s.recv = some s') : Steps s s' := by
  unfold State.recv at h
  split at h
  · cases h
  · split at h
    · rename_i r hr
      cases h
      refine .of_same rfl rfl fun o d hd => ?_
      cases o with
      | manager => exact ⟨.manager, hd⟩
      | channel => cases hd
      | loop =>
        cases hd
        exact ⟨.channel, hr⟩
    · split at h
      · cases h
        exact steps_stop
      · cases h

/-- Reading a frame. -/
theorem steps_read {handled : List Nat} (hl : s.conn .loop = some c) (hr : c.Reads c' handled)
    (hh : ∀ t ∈ s.handled, t ∈ handled) :
    Steps s { s with loop := .reading c', handled := handled } where
  emitted := Nat.le_refl _
  handled := hh
  conn o d hd := by
    cases o with
    | manager => exact .same (o := .manager) hd
    | channel => exact .same (o := .channel) hd
    | loop =>
      cases hd
      exact .read hl hr

theorem steps_next (h : s.next = some s') : Steps s s' := by
  unfold State.next at h
  split at h
  · rename_i read hl
    have hconn : s.conn .loop = some read := by rw [State.conn, hl]
    split at h
    · rename_i trade queue hq
      cases h
      refine steps_read hconn ⟨rfl, rfl, .text trade, hq, fun t ht => ?_⟩ fun t ht =>
        List.mem_append_left _ ht
      cases ht
      exact List.mem_append_right _ List.mem_cons_self
    · rename_i queue hq
      cases h
      exact steps_read hconn ⟨rfl, rfl, .other, hq, fun t ht => (nomatch ht)⟩ fun _ ht => ht
    · cases h
      exact steps_stop
    · split at h
      · cases h
        exact steps_stop
      · cases h
  · cases h

theorem steps_of_step (h : step s a = some s') : Steps s s' := by
  cases a with
  | emit =>
    cases h
    exact ⟨Nat.le_succ _, fun _ ht => ht, fun o c hc => .same (o := o) (by cases o <;> exact hc)⟩
  | arrive o x =>
    obtain ⟨c, hc, h⟩ := Option.bind_eq_some_iff.1 h
    obtain ⟨c', ha, rfl⟩ := Option.map_eq_some_iff.1 h
    exact steps_arrive hc ha
  | connect reply => exact steps_connect h
  | send => exact steps_send h
  | wake => exact steps_wake h
  | recv => exact steps_recv h
  | next => exact steps_next h

/-! ## The invariant -/

/-- No trade that arrived is lost while its connection is there. -/
def Inv (s : State) : Prop := ∀ o c, s.conn o = some c → c.Delivers s.emitted s.handled

theorem inv_init (n : Nat) : Inv (.init n) := by
  intro o c h
  cases o <;> cases h

theorem Inv.step (h : Inv s) (hs : step s a = some s') : Inv s' := by
  intro o c' hc
  obtain ⟨he, hh, hconn⟩ := steps_of_step hs
  cases hconn o c' hc with
  | same hc => exact (h _ _ hc).mono he hh
  | arrived hc ha => exact ((h _ _ hc).arrive ha).mono he hh
  | established heq =>
    rw [heq]
    exact (delivers_establish s.emitted s.handled).mono he hh
  | read hc hr => exact ((h _ _ hc).mono he hh).read hr

/-! ## Rotations -/

/-- The stream that a step replaces, and the one that it is replaced by. -/
def handover (s : State) : Action → Option (Conn × Conn)
  | .recv =>
    match s.loop, s.channel with
    | .reading old, some new => some (old, new)
    | _, _ => none
  | _ => none

/-- When `read` is replaced, every trade that arrived on the old stream and is not carried by the new
one is handled. -/
def Keeps (s : State) (a : Action) : Prop :=
  ∀ p ∈ handover s a, ∀ t < p.1.arrived, p.1.since ≤ t → t < p.2.since → t ∈ s.handled

instance instDecidableKeeps (s : State) (a : Action) : Decidable (Keeps s a) :=
  inferInstanceAs (Decidable (∀ p ∈ handover s a, ∀ t < p.1.arrived, p.1.since ≤ t →
    t < p.2.since → t ∈ s.handled))

/-- When `read` is replaced, every trade that waits on the old stream was emitted after the new
connection was established, or was handled before on an earlier stream. -/
def Drained (s : State) (a : Action) : Prop :=
  ∀ p ∈ handover s a, ∀ t, .text t ∈ p.1.queue → p.2.since ≤ t ∨ t ∈ s.handled

theorem handover_conn {p : Conn × Conn} (h : handover s a = some p) :
    s.conn .loop = some p.1 ∧ s.conn .channel = some p.2 := by
  cases a with
  | recv =>
    simp only [handover] at h
    split at h
    · rename_i old new hl hc
      cases h
      exact ⟨by rw [State.conn, hl], hc⟩
    · cases h
  | _ => cases h

/-- **What one rotation loses**: the trades waiting in the queue that is dropped. -/
theorem keeps_iff_drained (hi : Inv s) : Keeps s a ↔ Drained s a := by
  refine forall_congr' fun p => forall_congr' fun hp => ?_
  have hd : p.1.Delivers s.emitted s.handled := hi _ _ (handover_conn hp).1
  refine ⟨fun h t ht => ?_, fun h t h2 h1 hlt => ?_⟩
  · obtain ⟨h1, h2⟩ := hd.waiting t ht
    by_cases hlt : t < p.2.since
    · exact .inr (h t h2 h1 hlt)
    · exact .inl (by omega)
  · rcases hd.kept t h1 h2 with hk | hk
    · exact hk
    · exact (h t hk).resolve_left (by omega)

/-- **On every stream that is read, no trade is lost**: after any run, what arrived on it is handled
or waits. -/
theorem arrived_handled_or_waiting {as : List Action} (h : run step (.init n) as = some s)
    (hl : s.loop = .reading c) :
    ∀ t, c.since ≤ t → t < c.arrived → t ∈ s.handled ∨ .text t ∈ c.queue := by
  have hi : Inv s := run_inv (fun _ _ _ h hs => h.step hs) (inv_init n) h
  have hconn : s.conn .loop = some c := by rw [State.conn, hl]
  exact (hi _ _ hconn).kept

end

/-- **When stream rotation loses no trade**: in the runs each of whose rotations finds the old stream
drained up to where the new one begins. -/
theorem rotation_keeps_iff (n : Nat) (as : List Action) :
    EachStep step Keeps (.init n) as ↔ EachStep step Drained (.init n) as :=
  eachStep_congr (I := Inv) (fun _ _ _ h hs => h.step hs) (fun _ _ => keeps_iff_drained)
    (inv_init n) as

/-- The first stream is read, a trade arrives on it, another stream is established and sent, and
`select!` takes it. -/
def rotating : List Action :=
  [.connect (.ok ()), .send, .recv, .emit, .arrive .loop .trade, .wake, .connect (.ok ()), .send,
    .recv]

/-- The trade waiting on the old stream is lost. -/
theorem rotation_loses_trade : ¬∀ (n : Nat) (as : List Action),
    EachStep step Keeps (.init n) as := by
  intro h
  exact absurd (h 0 rotating) (by decide)

end Collector
