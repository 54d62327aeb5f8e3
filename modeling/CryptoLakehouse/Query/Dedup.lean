import CryptoLakehouse.Query.Engine

/-!
# crypto-dedup

The rewrite of a `trade_ts` window of one trades table into another: the first row of each key by
`event_ts, trade_ts`. The audit counts the rows of the window, and the others among them.

A window is a pair of stored instants. Bounds past the nanosecond range are no `TIMESTAMP` literals
for the engine, and the queries that fail on them are not modelled.
-/

namespace Query.Dedup

open Trades Sink

/-- The rows of the window, numbered within their keys. -/
def ranked (order : RowOrder) (source : List TradeRow) (start stop : Int64) :
    List (TradeRow × Nat) :=
  Window.rowNumber partKey (order.apply (source.filter (inRange start stop)))

/-- The counts of the audit. -/
structure Audit where
  rowsInRange : Nat
  duplicateRows : Nat
deriving DecidableEq, Repr

/-- How many rows are in range, and how many of them are redundant. -/
def audit (order : RowOrder) (source : List TradeRow) (start stop : Int64) : Audit :=
  let rows := ranked order source start stop
  { rowsInRange := rows.length
    duplicateRows := rows.countP fun p => decide (1 < p.2) }

/-- One row per key. -/
def rewrite (order : RowOrder) (source : List TradeRow) (start stop : Int64) : List TradeRow :=
  ((ranked order source start stop).filter fun p => p.2 == 1).map (·.1)

/-- `crypto-dedup --insert-into`: the target afterwards, and how many rows are visible. -/
def insertInto (into : String) (source : List TradeRow) (start stop : Int64) (chunkRows : Nat)
    (ops : RunOps) (target : Lake) : Lake × Except Error Nat :=
  appendQuery ops into (fun _ => rewrite ops.order source start stop) start stop chunkRows target

end Query.Dedup
