import CryptoLakehouse.Error

/-!
# Stream rotation

The collector reads one websocket at a time. Every 20 hours the connection manager opens another
one and hands its stream over through a channel of one place; `the_big_loop` selects between
receiving that stream and reading the current one. A machine of the exchange, the manager and the
loop: what the network does, and which ready branch `select!` takes, comes with the action.

The trades of the exchange are numbered in the order they are emitted. A connection delivers, in
order, the trades emitted after it was established.
-/

namespace Collector

/-! ## Connections -/

/-- An item of a websocket stream. -/
inductive Frame
  /-- `Ok(TMsg::Text(txt))`, the text of a trade. -/
  | text (trade : Nat)
  /-- Any other `Ok`. -/
  | other
  /-- `Err`. -/
  | error
deriving DecidableEq

/-- An open connection. -/
structure Conn where
  /-- The trades emitted before it was established. -/
  since : Nat
  /-- The next trade that it delivers. -/
  arrived : Nat
  /-- What has arrived and was not read. -/
  queue : List Frame
  /-- The stream ends after `queue`. -/
  ended : Bool
deriving DecidableEq

def Conn.establish (emitted : Nat) : Conn := ⟨emitted, emitted, [], false⟩

/-- What arrives on a connection. -/
inductive Arrival
  | trade
  | other
  | error
  | close

/-- A connection delivers the trades that were emitted, in order, and nothing once it ended. -/
def Conn.arrive (emitted : Nat) (c : Conn) (a : Arrival) : Option Conn :=
  if c.ended then none
  else match a with
    | .trade =>
      if c.arrived < emitted then
        some { c with arrived := c.arrived + 1, queue := c.queue ++ [.text c.arrived] }
      else none
    | .other => some { c with queue := c.queue ++ [.other] }
    | .error => some { c with queue := c.queue ++ [.error] }
    | .close => some { c with ended := true }

/-! ## States -/

/-- Where `connection_manager` is. -/
inductive Manager
  /-- In `connect_async`. -/
  | connecting
  /-- In `sender.send(read)`. -/
  | sending (read : Conn)
  | sleeping
  /-- It has returned, and `sender` is dropped. -/
  | dead

/-- Where `the_big_loop` is. -/
inductive Loop
  /-- In the first `recv`. -/
  | starting
  /-- In `select!`. -/
  | reading (read : Conn)
  /-- It has returned, and `recv` is dropped. -/
  | stopped

structure State where
  emitted : Nat
  manager : Manager
  /-- `channel(1)`. -/
  channel : Option Conn
  loop : Loop
  /-- The trades passed to `handle_message`, in order. -/
  handled : List Nat

def State.init (emitted : Nat) : State := ⟨emitted, .connecting, none, .starting, []⟩

/-- The owner of a connection. -/
inductive Owner
  | manager
  | channel
  | loop

def State.conn (s : State) : Owner → Option Conn
  | .manager =>
    match s.manager with
    | .sending c => some c
    | _ => none
  | .channel => s.channel
  | .loop =>
    match s.loop with
    | .reading c => some c
    | _ => none

def State.setConn (s : State) (c : Conn) : Owner → State
  | .manager => { s with manager := .sending c }
  | .channel => { s with channel := some c }
  | .loop => { s with loop := .reading c }

/-! ## Steps -/

inductive Action
  /-- The exchange emits a trade. -/
  | emit
  /-- Something arrives on a connection. -/
  | arrive (owner : Owner) (a : Arrival)
  /-- `connect_async` returns. -/
  | connect (reply : Reply)
  /-- `send` returns. -/
  | send
  /-- The manager's sleep ends. -/
  | wake
  /-- The loop takes the branch of `recv.recv()`. -/
  | recv
  /-- The loop takes the branch of `read.next()`. -/
  | next

def State.connect (s : State) (reply : Reply) : Option State :=
  match s.manager with
  | .connecting =>
    match reply with
    | .ok _ => some { s with manager := .sending (.establish s.emitted) }
    | .error _ => some { s with manager := .dead }
  | _ => none

/-- It waits for a free place, and fails when nobody receives. -/
def State.send (s : State) : Option State :=
  match s.manager with
  | .sending c =>
    match s.loop with
    | .stopped => some { s with manager := .dead }
    | _ =>
      match s.channel with
      | none => some { s with channel := some c, manager := .sleeping }
      | some _ => none
  | _ => none

def State.wake (s : State) : Option State :=
  match s.manager with
  | .sleeping => some { s with manager := .connecting }
  | _ => none

def State.stop (s : State) : State := { s with loop := .stopped, channel := none }

/-- The stream received, if any, replaces the one that is read. -/
def State.recv (s : State) : Option State :=
  match s.loop with
  | .stopped => none
  | _ =>
    match s.channel with
    | some r => some { s with loop := .reading r, channel := none }
    | none =>
      match s.manager with
      | .dead => some s.stop
      | _ => none

def State.next (s : State) : Option State :=
  match s.loop with
  | .reading read =>
    match read.queue with
    | .text trade :: queue =>
      some { s with loop := .reading { read with queue }, handled := s.handled ++ [trade] }
    | .other :: queue => some { s with loop := .reading { read with queue } }
    | .error :: _ => some s.stop
    | [] => if read.ended then some s.stop else none
  | _ => none

def step (s : State) : Action → Option State
  | .emit => some { s with emitted := s.emitted + 1 }
  | .arrive owner a =>
    (s.conn owner).bind fun c => (c.arrive s.emitted a).map fun c => s.setConn c owner
  | .connect reply => s.connect reply
  | .send => s.send
  | .wake => s.wake
  | .recv => s.recv
  | .next => s.next

end Collector
