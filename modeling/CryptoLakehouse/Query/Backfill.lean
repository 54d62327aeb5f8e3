import Mathlib.Algebra.Ring.Int.Defs
import CryptoLakehouse.Query.Engine

/-!
# crypto-backfill

The rows of a `trade_ts` window that a source table has and a target table is missing: the first
row of each key by `event_ts, trade_ts`, when it is complete and the target does not hold its key
in the window widened by a margin of days.

A window is a pair of stored instants. Bounds that the engine cannot read as `TIMESTAMP` literals
(past the nanosecond range) make no window, and the query that fails on them is not modelled; one
that fails on *widened* bounds is (`candidateSql`).
-/

namespace Query.Backfill

open Trades Sink

/-- Columns the target requires and that have no honest default. -/
def mustNotBeNull : List String :=
  ["event_time", "symbol", "exchange", "trade_id", "price", "quantity", "trade_time", "trade_ts",
    "event_ts"]

def complete (r : TradeRow) : Bool :=
  mustNotBeNull.all fun column => (schema.cell r.toRow column).isSome

structure SrcRanked where
  row : TradeRow
  makerWasNull : Bool
  complete : Bool
  rn : Nat

def srcRanked (order : RowOrder) (source : List TradeRow) (start stop : Int64) : List SrcRanked :=
  (Window.rowNumber partKey (order.apply (source.filter (inRange start stop)))).map fun p =>
    { row := p.1, makerWasNull := p.1.isBuyerMaker.isNone, complete := complete p.1, rn := p.2 }

/-- The window, widened by `marginDays` at both ends. Here the bounds are integers and widening never
fails; where the engine's does, there is no query (`candidateSql`). -/
def inMargin (start stop marginDays : Int64) (r : TradeRow) : Bool :=
  r.tradeTs.any fun t =>
    start.toInt - marginDays.toInt * microsPerDay.toInt ≤ t.toInt &&
      t.toInt < stop.toInt + marginDays.toInt * microsPerDay.toInt

/-- The distinct keys of the target in the widened window. -/
def targetKeys (target : List TradeRow) (start stop marginDays : Int64) :
    List (Option String × Option String × Option Int64) :=
  ((target.filter (inMargin start stop marginDays)).map partKey).dedup

/-- The append list. -/
def missing (order : RowOrder) (source target : List TradeRow) (start stop marginDays : Int64) :
    List TradeRow :=
  let s := Keyed.antiJoin (fun s => s.row.key) keyOf (srcRanked order source start stop)
    (targetKeys target start stop marginDays)
  (s.filter fun s => s.rn == 1 && s.complete).map (·.row)

/-- `CAST(coalesce(CAST(flag AS INT), 0) AS BOOLEAN)`. -/
def coalesceFlag (flag : Option Bool) : Bool := (flag.map Bool.toNat).getD 0 != 0

/-- How a candidate row is rewritten before it reaches the target table. -/
def candidateProjection (r : TradeRow) : TradeRow where
  eventTime := some (r.eventTime.getD 0)
  symbol := some (r.symbol.getD "")
  exchange := some (r.exchange.getD "")
  tradeId := some (r.tradeId.getD 0)
  price := some (r.price.getD 0)
  quantity := some (r.quantity.getD 0)
  tradeTime := some (r.tradeTime.getD 0)
  isBuyerMaker := some (coalesceFlag r.isBuyerMaker)
  isBestPriceMatch := some (coalesceFlag r.isBestPriceMatch)
  tradeTs := some (r.tradeTs.getD 0)
  eventTs := some (r.eventTs.getD 0)

/-- The rows to append. -/
def candidates (order : RowOrder) (source target : List TradeRow)
    (start stop marginDays : Int64) : List TradeRow :=
  (missing order source target start stop marginDays).map candidateProjection

/-- The rows that `candidate_sql` yields. `widens` says whether the engine can compute the widened
bounds; when it cannot, the query fails and yields nothing. -/
def candidateSql (widens : Int64 → Int64 → Int64 → Bool) (order : RowOrder)
    (source target : List TradeRow) (start stop marginDays : Int64) : List TradeRow :=
  if widens start stop marginDays then candidates order source target start stop marginDays else []

/-- An `INTERVAL` counts days in 32 bits, and a `TIMESTAMP` nanoseconds in 64. -/
def widensNanos (start stop marginDays : Int64) : Bool :=
  let fits (bits : Nat) (i : Int) : Bool := decide (-2 ^ bits ≤ i ∧ i < 2 ^ bits)
  fits 31 marginDays.toInt &&
    fits 63 ((start.toInt - marginDays.toInt * microsPerDay.toInt) * 1000) &&
    fits 63 ((stop.toInt + marginDays.toInt * microsPerDay.toInt) * 1000)

/-- The counts of the audit. -/
structure Audit where
  rowsInWindow : Nat
  distinctKeys : Nat
  duplicateRows : Nat
  makerNulls : Nat
  rowsSkippedNull : Nat
  rowsToAppend : Nat
deriving DecidableEq, Repr

/-- `audit_sql`: the ranked rows of the window, joined to the append list. The ranking is evaluated
twice, and each time the ties are resolved anew. On a margin that the engine cannot widen by, the
audit fails as `candidate_sql` does; that is not modelled, these are the counts where it widens. -/
def audit (order order' : RowOrder) (source target : List TradeRow)
    (start stop marginDays : Int64) : Audit :=
  let joined := Keyed.leftJoin (fun s => s.row.key) TradeRow.key
    (srcRanked order source start stop) (missing order' source target start stop marginDays)
  { rowsInWindow := joined.length
    distinctKeys := joined.countP fun p => p.1.rn == 1
    duplicateRows := joined.countP fun p => decide (1 < p.1.rn)
    makerNulls := joined.countP fun p => p.1.makerWasNull && p.1.rn == 1
    rowsSkippedNull := joined.countP fun p => p.1.rn == 1 && !p.1.complete
    rowsToAppend := joined.countP fun p => p.1.rn == 1 && p.2.any fun m => m.tradeId.isSome }

/-- `crypto-backfill --execute`: the target afterwards, and how many rows are visible, where the
engine can widen by the margin. -/
def execute (into : String) (source : List TradeRow) (start stop marginDays : Int64)
    (chunkRows : Nat) (ops : RunOps) (target : Lake) : Lake × Except Error Nat :=
  appendQuery ops into (fun rows => candidates ops.order source rows start stop marginDays) start
    stop chunkRows target

end Query.Backfill
