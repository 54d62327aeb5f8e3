import CryptoLakehouse.Batcher.Source
import CryptoLakehouse.Collector.Message

/-!
# The lakehouse

From the exchange to the table: a collector reads text frames and publishes each trade's encoding to
a JetStream stream, the batcher's consumer of that stream delivers its messages to the source, and
the source and the batch loop move their rows to the table.

A publish that was sent may or may not reach the stream, whatever it returns: the collector does not
wait for the stream's confirmation. Messages of the stream do not expire.
-/

namespace Lakehouse

open Trades Sink Collector Fallible

structure State where
  /-- The frames that collectors have read. -/
  frames : List String
  /-- The payloads of the stream, by sequence number. -/
  stream : List (List UInt8)
  batcher : Batcher.Source.State

inductive Action
  /-- A collector reads a frame: what its publish returns, and whether it reached the stream. -/
  | frame (txt : String) (reply : Reply) (reached : Bool)
  /-- A step of the consumer, the source, the batch loop or another writer. -/
  | batcher (a : Batcher.Source.Action)

/-- The payload of a sequence number. -/
def State.payload (s : State) (seq : Nat) : Option (List UInt8) := s.stream[seq]?

section
variable (libs : Libs) (cfg : Batcher.Source.Config) (decode : List UInt8 → Option TradeEvent)

/-- `handle_message` on a frame. A collector that panics is started again. -/
def State.frame (s : State) (txt : String) (reply : Reply) (reached : Bool) : State :=
  let published := final ((binanceExchange libs).handleMessage libs (fun _ => reply) txt [])
  { s with
    frames := s.frames ++ [txt]
    stream := s.stream ++ if reached then published.map (·.eventBytes) else [] }

def step (s : State) : Action → Option State
  | .frame txt reply reached => some (s.frame libs txt reply reached)
  | .batcher a => (Batcher.Source.step cfg decode s.payload s.batcher a).map fun b =>
      { s with batcher := b }

end

/-- An empty stream, and the first batcher on a table. -/
def State.start (cfg : Batcher.Source.Config) (lake : Lake) : State := ⟨[], [], .start cfg lake⟩

end Lakehouse
