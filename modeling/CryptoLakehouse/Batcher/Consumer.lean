import CryptoLakehouse.Catalog.Ensure

/-!
# The durable consumer

How a batcher that starts finds its durable consumer or makes it, and reconciles the configuration it
finds there: `ensure_consumer`, cut at every request. Any number of batchers may be in it at once, each
with settings of its own, and are started again when they fail; how a request ends comes with the
action.

The server keeps what has been acked when a consumer's configuration changes, and nobody deletes a
consumer. What it makes of a configuration is a parameter, `stored`.
-/

namespace Batcher.Consumer

open Settings
open Provisioning (Outcome)

/-! ## The server -/

structure Durable where
  config : ConsumerConfig
  acked : List Nat

abbrev Server := String → Option Durable

/-- `create_consumer` and `update_consumer`: a new consumer, or a new configuration. -/
def Server.put (consumers : Server) (name : String) (config : ConsumerConfig) : Server :=
  Function.update consumers name (some ⟨config, (consumers name).elim [] (·.acked)⟩)

/-! ## A process -/

/-- Where `ensure_consumer` is. -/
inductive Stage
  /-- In `get_or_create_consumer`, which asks for the consumer. -/
  | getting
  /-- In `get_or_create_consumer`, which found none. -/
  | creating
  /-- In the `consumer_info` before the comparison. -/
  | inspecting
  /-- In `update_consumer`. -/
  | updating
  /-- In `get_consumer`. -/
  | reloading
  /-- In the `consumer_info` after an update. -/
  | confirming
deriving DecidableEq

inductive Proc
  | idle
  | running (name : String) (config : ConsumerConfig) (stage : Stage)
  /-- It has returned `Ok`, with `info` as it was logged. -/
  | ready (name : String) (config : ConsumerConfig) (info : Option ConsumerConfig)
  | failed (e : Error)

/-- The fields that are compared. -/
def drifted (current config : ConsumerConfig) : Bool :=
  current.ackWait != config.ackWait || current.maxAckPending != config.maxAckPending ||
    current.filterSubject != config.filterSubject

/-- Up to the first request. -/
def begin (checks : Bool) (cfg : NatsConfig) (batch : BatchConfig) : Proc :=
  match consumerConfig checks cfg batch with
  | .ok config => .running cfg.consumer config .getting
  | .error e => .failed e

/-- `.with_context(text)` on what a request reports. -/
def failedWith (text why : String) : Proc := .failed (.context text (.external why))

section
variable (stored : ConsumerConfig → ConsumerConfig) (name : String) (config : ConsumerConfig)
  (consumers : Server)

def getOrCreateText : String := s!"failed to get/create consumer '{name}'"

def get : Outcome → Proc
  | .answered =>
    match consumers name with
    | some _ => .running name config .inspecting
    | none => .running name config .creating
  | .refused why => failedWith (getOrCreateText name) why
  | .lost why => failedWith (getOrCreateText name) why

def create : Outcome → Server × Proc
  | .answered => (consumers.put name (stored config), .running name config .inspecting)
  | .refused why => (consumers, failedWith (getOrCreateText name) why)
  | .lost why => (consumers.put name (stored config), failedWith (getOrCreateText name) why)

/-- A `consumer_info` that fails is no error. -/
def inspect : Outcome → Proc
  | .answered =>
    match consumers name with
    | some current =>
      if drifted current.config config then .running name config .updating
      else .ready name config (some current.config)
    | none => .ready name config none
  | .refused _ => .ready name config none
  | .lost _ => .ready name config none

/-- A consumer that is not there cannot be updated. -/
def update (outcome : Outcome) : Server × Proc :=
  let text := s!"failed to update consumer '{name}'"
  if (consumers name).isNone then (consumers, failedWith text "consumer not found")
  else match outcome with
    | .answered => (consumers.put name (stored config), .running name config .reloading)
    | .refused why => (consumers, failedWith text why)
    | .lost why => (consumers.put name (stored config), failedWith text why)

/-- `get_consumer`, whose error is a text of its own. -/
def reload (outcome : Outcome) : Proc :=
  let failed (why : String) : Proc :=
    .failed (.context s!"failed to reload consumer '{name}'"
      (.msg s!"failed to reload consumer: {why}"))
  match outcome with
  | .answered => if (consumers name).isNone then failed "consumer not found"
    else .running name config .confirming
  | .refused why => failed why
  | .lost why => failed why

def confirm : Outcome → Proc
  | .answered => .ready name config ((consumers name).map (·.config))
  | .refused _ => .ready name config none
  | .lost _ => .ready name config none

/-- The end of the request that a process waits for. -/
def request (outcome : Outcome) : Stage → Server × Proc
  | .getting => (consumers, get name config consumers outcome)
  | .creating => create stored name config consumers outcome
  | .inspecting => (consumers, inspect name config consumers outcome)
  | .updating => update stored name config consumers outcome
  | .reloading => (consumers, reload name config consumers outcome)
  | .confirming => (consumers, confirm name config consumers outcome)

end

/-! ## The machine -/

structure State where
  consumers : Server
  procs : Nat → Proc

inductive Action
  /-- A process is started with these settings, again if it was before. -/
  | start (pid : Nat) (cfg : NatsConfig) (batch : BatchConfig)
  /-- The request that a process waits for ends. -/
  | request (pid : Nat) (outcome : Outcome)
  /-- A message of the consumer's is acked. -/
  | ack (name : String) (seq : Nat)

def step (stored : ConsumerConfig → ConsumerConfig) (checks : Bool) (s : State) :
    Action → Option State
  | .start pid cfg batch =>
    some { s with procs := Function.update s.procs pid (begin checks cfg batch) }
  | .request pid outcome =>
    match s.procs pid with
    | .running name config stage =>
      let (consumers, p) := request stored name config s.consumers outcome stage
      some ⟨consumers, Function.update s.procs pid p⟩
    | _ => none
  | .ack name seq => (s.consumers name).map fun d =>
    { s with
      consumers := Function.update s.consumers name (some { d with acked := d.acked ++ [seq] }) }

/-- What the server has at first, and no process started. -/
def State.init (consumers : Server) : State := ⟨consumers, fun _ => .idle⟩

end Batcher.Consumer
