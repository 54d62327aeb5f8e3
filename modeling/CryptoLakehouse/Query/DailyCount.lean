import Mathlib.Data.List.Dedup
import Mathlib.Data.List.Sort
import CryptoLakehouse.Query.Append

/-!
# crypto-iceberg-query

The row counts per day of one trades table over a `trade_ts` range.

A range is a pair of stored instants. Bounds past the nanosecond range are no `TIMESTAMP` literals
for the engine, and the query that fails on them is not modelled.
-/

namespace Query.Daily

open Sink Trades

/-- `trade_ts between start and stop`: both ends are in. -/
def between (start stop : Int64) (r : TradeRow) : Bool :=
  r.tradeTs.any fun t => start ≤ t && t ≤ stop

/-- `to_char(trade_ts, '%Y%m%d')`, by the count of the day it spells. -/
def day (r : TradeRow) : Option Int64 := r.tradeTs.map (·.divEuclid microsPerDay)

/-- `concat(exchange, cast(trade_id as varchar), symbol)`: a NULL adds nothing. -/
def concat (r : TradeRow) : String :=
  r.exchange.getD "" ++ (r.tradeId.map toString).getD "" ++ r.symbol.getD ""

structure DayCount where
  day : Int64
  cnt : Nat
  cntDist : Nat
deriving DecidableEq

def daySql (source : List TradeRow) (start stop : Int64) : List DayCount :=
  let rows := source.filter (between start stop)
  ((rows.filterMap day).dedup.insertionSort (· ≤ ·)).map fun d =>
    let group := rows.filter fun r => day r == some d
    ⟨d, group.length, (group.map concat).dedup.length⟩

end Query.Daily
