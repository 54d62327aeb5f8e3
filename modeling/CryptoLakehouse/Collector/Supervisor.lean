import CryptoLakehouse.Collector.Rotation

/-!
# The collector's process

`main` of the collector calls `the_big_loop` again and again, with a pause between two calls that
doubles, up to a minute, and begins anew after a call that lasted. Every call spawns a connection
manager of its own, and nothing stops the manager of a call that has returned: an orphan, it sleeps
on, opens one more connection and finds that nobody receives it.

Times are in nanoseconds. What happens takes none; `tick` lets it pass.
-/

namespace Collector.Supervisor

/-! ## Durations -/

def second : Nat := 1000000000

/-- `CONNECTION_TIMEOUT` -/
def connectionTimeout : Nat := 60 * 60 * 20 * second

/-! ## A call of `the_big_loop` -/

structure Task where
  rotation : Collector.State
  /-- When the manager's sleep ends. -/
  wakeAt : Nat

def Task.new (emitted : Nat) : Task := ⟨.init emitted, 0⟩

/-- A step of the call or of its manager. -/
def Task.step (now : Nat) (t : Task) : Collector.Action → Option Task
  | .emit => none
  | .send => t.rotation.send.map fun rotation => ⟨rotation, now + connectionTimeout⟩
  | .wake =>
    if t.wakeAt ≤ now then t.rotation.wake.map fun rotation => { t with rotation } else none
  | a => (Collector.step t.rotation a).map fun rotation => { t with rotation }

def Task.emit (t : Task) : Task :=
  { t with rotation := { t.rotation with emitted := t.rotation.emitted + 1 } }

/-! ## The process -/

inductive Phase
  /-- In `the_big_loop`, since `started`. -/
  | running (started : Nat)
  /-- In `sleep(backoff)`. -/
  | sleeping (wakeAt : Nat)

structure State where
  now : Nat
  backoff : Nat
  phase : Phase
  /-- The last call. -/
  task : Task
  /-- What is left of the calls before. -/
  orphans : List Task
  /-- The trades handled by the calls before, for statements about runs. -/
  past : List Nat

def State.init (emitted : Nat) : State where
  now := 0
  backoff := second
  phase := .running 0
  task := .new emitted
  orphans := []
  past := []

/-- The trades handled, by all calls. -/
def State.handled (s : State) : List Nat := s.past ++ s.task.rotation.handled

inductive Action
  | tick (d : Nat)
  /-- The exchange emits a trade. -/
  | emit
  | task (a : Collector.Action)
  | orphan (i : Nat) (a : Collector.Action)
  /-- `the_big_loop` has returned. -/
  | ended
  /-- The pause is over, and `the_big_loop` is called again. -/
  | reconnect
  /-- The process panics or is killed, and is started again. -/
  | crash

/-- The pause before the next call, after one that began at `started`. -/
def State.pause (s : State) (started : Nat) : Nat :=
  if s.now - started > 60 * second then second else s.backoff

def State.ended (s : State) : Option State :=
  match s.phase, s.task.rotation.loop with
  | .running started, .stopped =>
    some { s with backoff := s.pause started, phase := .sleeping (s.now + s.pause started) }
  | _, _ => none

/-- `(backoff * 2).min(Duration::from_secs(60))` -/
def nextBackoff (backoff : Nat) : Nat := min (backoff * 2) (60 * second)

def State.reconnect (s : State) : Option State :=
  match s.phase with
  | .running _ => none
  | .sleeping wakeAt =>
    if wakeAt ≤ s.now then
      some {
        now := s.now
        backoff := nextBackoff s.backoff
        phase := .running s.now
        task := .new s.task.rotation.emitted
        orphans := s.orphans ++ [s.task]
        past := s.handled }
    else none

/-- Nothing of a process outlives it. -/
def State.crash (s : State) : State where
  now := s.now
  backoff := second
  phase := .running s.now
  task := .new s.task.rotation.emitted
  orphans := []
  past := s.handled

def step (s : State) : Action → Option State
  | .tick d => some { s with now := s.now + d }
  | .emit => some { s with task := s.task.emit, orphans := s.orphans.map Task.emit }
  | .task a => (s.task.step s.now a).map fun task => { s with task }
  | .orphan i a => s.orphans[i]?.bind fun t => (t.step s.now a).map fun t =>
      { s with orphans := s.orphans.set i t }
  | .ended => s.ended
  | .reconnect => s.reconnect
  | .crash => some s.crash

end Collector.Supervisor
