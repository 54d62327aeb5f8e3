import Mathlib.Data.Prod.Lex
import Mathlib.Order.WithBot
import CryptoLakehouse.Lib.Int64
import CryptoLakehouse.Lib.Window
import CryptoLakehouse.Query.Append

/-!
# Running a query

What the query engine decides when a tool runs a query: how `ORDER BY event_ts, trade_ts` resolves
ties (`RowOrder`), and how the rows of the result arrive (`Execution`). `appendQuery` is the
writing arm that the two tools share: open the destination, stream a query into it, read the
window back.
-/

namespace Query

open Arrow Trades Sink Fallible

/-! ## Ranking -/

/-- `PARTITION BY exchange, symbol, trade_id`, where NULLs are one value. -/
def partKey (r : TradeRow) : Option String × Option String × Option Int64 :=
  (r.exchange, r.symbol, r.tradeId)

/-- What a join on `exchange, symbol, trade_id` can match: a NULL equals nothing. -/
def keyOf : Option String × Option String × Option Int64 → Option Key
  | (some e, some s, some i) => some (e, s, i)
  | _ => none

/-- `ORDER BY event_ts, trade_ts`: ascending, NULLS LAST. -/
def rank (r : TradeRow) : WithTop Int64 ×ₗ WithTop Int64 := toLex (r.eventTs, r.tradeTs)

def rowLe (a b : TradeRow) : Bool := rank a ≤ rank b

/-- A sort of the window's input. -/
abbrev RowOrder := Window.Ordering rowLe

theorem rowLe_refl (a : TradeRow) : rowLe a a = true := decide_eq_true (le_refl _)

theorem rowLe_total (a b : TradeRow) : rowLe a b = true ∨ rowLe b a = true := by
  rw [rowLe, rowLe, decide_eq_true_iff, decide_eq_true_iff]
  exact le_total _ _

theorem rowLe_trans (a b c : TradeRow) (h : rowLe a b = true) (h' : rowLe b c = true) :
    rowLe a c = true :=
  decide_eq_true ((of_decide_eq_true h).trans (of_decide_eq_true h'))

/-- Rows of equal rank stay in the order they were read in. -/
def stableOrder : RowOrder := Window.Ordering.stable rowLe rowLe_total rowLe_trans

/-- The rows of a window with `row_number()` 1. -/
def firstRows (order : RowOrder) (rows : List TradeRow) : List TradeRow :=
  Window.firsts partKey (order.apply rows)

/-! ## Results -/

/-- How the rows of a result arrive: in batches, in any order, and not all of them when an error
ends the stream. -/
structure Execution where
  batches : List TradeRow → List (List TradeRow)
  failure : List TradeRow → Option String
  part : ∀ rows, (batches rows).flatten.Subperm rows
  whole : ∀ rows, failure rows = none → (batches rows).flatten.Perm rows

/-- Everything in one batch. -/
def Execution.atOnce : Execution where
  batches rows := [rows]
  failure _ := none
  part rows := by
    rw [List.flatten_singleton]
  whole rows _ := by rw [List.flatten_singleton]

/-- The first `n` rows, one by one, then an error. -/
def Execution.broken (n : Nat) (why : String) : Execution where
  batches rows := (rows.take n).map fun r => [r]
  failure _ := some why
  part rows := by
    rw [← List.flatMap_def, List.flatMap_singleton']
    exact (List.take_sublist n rows).subperm
  whole rows h := by cases h

/-- The output stream of a query with the given result. -/
def Execution.stream (exec : Execution) (rows : List TradeRow) : Stream :=
  ((exec.batches rows).map fun batch => .ok (outputBatch batch)) ++
    (exec.failure rows).toList.map .error

/-! ## The writing arm -/

/-- What the outside decides during a run of a tool. -/
structure RunOps where
  cfg : IcebergConfig
  openTable : Reply
  order : RowOrder
  exec : Execution
  stream : StreamOps
  planVerify : Reply
  collectVerify : Reply

/-- Nothing fails. -/
def RunOps.allOk : RunOps where
  cfg := ⟨5⟩
  openTable := .ok ()
  order := stableOrder
  exec := .atOnce
  stream := .allOk
  planVerify := .ok ()
  collectVerify := .ok ()

/-- The query fails after `n` rows. -/
def RunOps.failingAfter (n : Nat) : RunOps :=
  { RunOps.allOk with exec := .broken n "Resources exhausted" }

/-- With the destination open: `query` is run against its current snapshot. -/
def appendTo (ops : RunOps) (query : List TradeRow → List TradeRow) (start stop : Int64)
    (chunkRows : Nat) : SinkM Nat := do
  let target := (← get).lake.rows
  let written ← streamInto ops.stream (ops.exec.stream (query target)) chunkRows
  ofExcept (ensureVisible ops.planVerify ops.collectVerify (← get).lake.table start stop written)

/-- Opens the destination, streams the query into it and reads the window back: the table
afterwards, and how many rows are visible. A killed run ends as one whose stream fails does. -/
def appendQuery (ops : RunOps) (ident : String) (query : List TradeRow → List TradeRow)
    (start stop : Int64) (chunkRows : Nat) (lake : Lake) : Lake × Except Error Nat :=
  match ops.openTable with
  | .error why => (lake, .error (.context s!"failed to open the destination table {ident}"
      (.external why)))
  | .ok () =>
    match appendTo ops query start stop chunkRows (connect ident ops.cfg lake) with
    | .ok visible w => (w.lake, .ok visible)
    | .error e w => (w.lake, .error e)

/-- The table after several runs, one after the other. -/
def afterRuns (run : RunOps → Lake → Lake × Except Error Nat) (lake : Lake) (runs : List RunOps) :
    Lake :=
  runs.foldl (fun lake ops => (run ops lake).1) lake

end Query
