import CryptoLakehouse.Arrow
import CryptoLakehouse.Lib.Keyed

/-!
# The trades schema

The Iceberg schema of the trades table (`tableSchema`), its Arrow view (`arrowSchema`), and the
conversion of a micro-batch of decoded trade events to one Arrow batch (`toRecordBatch`).

`TradeRow` is a row of the table read by column name; every column may be NULL, as in the
historical tables. A row written by the batcher is `TradeRow.ofEvent e` for an event `e`
(`toRecordBatch_schema`).
-/

namespace Trades

open Arrow

/-! ## The Iceberg schema -/

inductive PrimitiveType
  | long | string | double | boolean | timestamptz
deriving DecidableEq, Repr

structure NestedField where
  id : Nat
  name : String
  type : PrimitiveType
  required : Bool
deriving DecidableEq, Repr

structure IcebergSchema where
  schemaId : Nat
  identifierFieldIds : List Nat
  fields : List NestedField
deriving DecidableEq, Repr

def idEventTime : Nat := 1
def idSymbol : Nat := 2
def idExchange : Nat := 3
def idTradeId : Nat := 4
def idPrice : Nat := 5
def idQuantity : Nat := 6
def idTradeTime : Nat := 7
def idIsBuyerMaker : Nat := 8
def idIsBestPriceMatch : Nat := 9
def idTradeTs : Nat := 10
def idEventTs : Nat := 11

/-- UTC as arrow spells it. -/
def icebergTz : String := "+00:00"

/-- Epoch milliseconds to epoch microseconds. -/
def microsPerMilli : Int64 := 1000

/-- The schema of the trades table: eleven required columns. -/
def tableSchema : IcebergSchema where
  schemaId := 1
  identifierFieldIds := [idExchange, idSymbol, idTradeId]
  fields := [
    ⟨idEventTime, "event_time", .long, true⟩,
    ⟨idSymbol, "symbol", .string, true⟩,
    ⟨idExchange, "exchange", .string, true⟩,
    ⟨idTradeId, "trade_id", .long, true⟩,
    ⟨idPrice, "price", .double, true⟩,
    ⟨idQuantity, "quantity", .double, true⟩,
    ⟨idTradeTime, "trade_time", .long, true⟩,
    ⟨idIsBuyerMaker, "is_buyer_maker", .boolean, true⟩,
    ⟨idIsBestPriceMatch, "is_best_price_match", .boolean, true⟩,
    ⟨idTradeTs, "trade_ts", .timestamptz, true⟩,
    ⟨idEventTs, "event_ts", .timestamptz, true⟩]

def PrimitiveType.toArrow : PrimitiveType → DataType
  | long => .int64
  | string => .utf8
  | double => .float64
  | boolean => .boolean
  | timestamptz => .timestamp .microsecond (some icebergTz)

/-- The Arrow view of an Iceberg schema. -/
def arrowSchema (s : IcebergSchema) : Schema :=
  s.fields.map fun f => ⟨f.name, f.type.toArrow, !f.required⟩

/-- The Arrow schema of a table that `tableSchema` created. -/
def schema : Schema := arrowSchema tableSchema

/-! ## Events and rows -/

/-- A decoded `TradeEventProto`. -/
structure TradeEvent where
  eventTime : UInt64
  symbol : String
  exchange : String
  tradeId : UInt64
  price : F64
  quantity : F64
  tradeTime : UInt64
  isBuyerMaker : Bool
  isBestPriceMatch : Bool
deriving DecidableEq

/-- A BTC trade with the given id and time. -/
def btcTrade (tradeId tradeTime : UInt64) : TradeEvent where
  eventTime := tradeTime
  symbol := "BTCUSDT"
  exchange := "BINANCE"
  tradeId
  price := 1
  quantity := 1
  tradeTime
  isBuyerMaker := false
  isBestPriceMatch := true

/-- A row of a trades table, by column name. -/
structure TradeRow where
  eventTime : Option Int64
  symbol : Option String
  exchange : Option String
  tradeId : Option Int64
  price : Option F64
  quantity : Option F64
  tradeTime : Option Int64
  isBuyerMaker : Option Bool
  isBestPriceMatch : Option Bool
  tradeTs : Option Int64
  eventTs : Option Int64
deriving DecidableEq

/-- `(exchange, symbol, trade_id)`. -/
abbrev Key := String × String × Int64

def TradeEvent.key (e : TradeEvent) : Key := (e.exchange, e.symbol, e.tradeId.toInt64)

/-- The trade time in microseconds: the wrapping `as i64` cast, then a wrapping product. -/
def TradeEvent.tradeTs (e : TradeEvent) : Int64 := e.tradeTime.toInt64 * microsPerMilli

/-- The key of a row none of whose key columns is NULL. -/
def TradeRow.key (r : TradeRow) : Option Key :=
  match r.exchange, r.symbol, r.tradeId with
  | some e, some s, some i => some (e, s, i)
  | _, _, _ => none

/-- The row the batcher writes for an event: the wrapping `as i64` casts, and milliseconds times
1000 in wrapping `i64` arithmetic (a release build). -/
def TradeRow.ofEvent (e : TradeEvent) : TradeRow where
  eventTime := some e.eventTime.toInt64
  symbol := some e.symbol
  exchange := some e.exchange
  tradeId := some e.tradeId.toInt64
  price := some e.price
  quantity := some e.quantity
  tradeTime := some e.tradeTime.toInt64
  isBuyerMaker := some e.isBuyerMaker
  isBestPriceMatch := some e.isBestPriceMatch
  tradeTs := some e.tradeTs
  eventTs := some (e.eventTime.toInt64 * microsPerMilli)

@[simp] theorem TradeRow.key_ofEvent (e : TradeEvent) : (TradeRow.ofEvent e).key = some e.key := rfl

theorem TradeRow.key_eq_some {r : TradeRow} {k : Key} : r.key = some k ↔
    r.exchange = some k.1 ∧ r.symbol = some k.2.1 ∧ r.tradeId = some k.2.2 := by
  obtain ⟨e, s, i⟩ := k
  unfold TradeRow.key
  cases r.exchange <;> cases r.symbol <;> cases r.tradeId <;> simp

/-! ## Reading and building batches -/

/-- A row of a batch, read by column name. -/
def TradeRow.read (s : Schema) (row : Row) : TradeRow where
  eventTime := (s.cell row "event_time").bind Value.int64?
  symbol := (s.cell row "symbol").bind Value.utf8?
  exchange := (s.cell row "exchange").bind Value.utf8?
  tradeId := (s.cell row "trade_id").bind Value.int64?
  price := (s.cell row "price").bind Value.float64?
  quantity := (s.cell row "quantity").bind Value.float64?
  tradeTime := (s.cell row "trade_time").bind Value.int64?
  isBuyerMaker := (s.cell row "is_buyer_maker").bind Value.boolean?
  isBestPriceMatch := (s.cell row "is_best_price_match").bind Value.boolean?
  tradeTs := (s.cell row "trade_ts").bind Value.timestamp?
  eventTs := (s.cell row "event_ts").bind Value.timestamp?

/-- The rows of a batch, by column name. -/
def trades (b : RecordBatch) : List TradeRow := b.rows.map (TradeRow.read b.schema)

/-- The types of the eleven arrays `to_record_batch` builds, in order. -/
def columnTypes : List DataType :=
  [.int64, .utf8, .utf8, .int64, .float64, .float64, .int64, .boolean, .boolean,
    .timestamp .microsecond (some icebergTz), .timestamp .microsecond (some icebergTz)]

/-- The cells of a row in contract order. -/
def TradeRow.toRow (r : TradeRow) : Row :=
  [r.eventTime.map .int64, r.symbol.map .utf8, r.exchange.map .utf8, r.tradeId.map .int64,
    r.price.map .float64, r.quantity.map .float64, r.tradeTime.map .int64,
    r.isBuyerMaker.map .boolean, r.isBestPriceMatch.map .boolean,
    r.tradeTs.map (.timestamp .microsecond (some icebergTz)),
    r.eventTs.map (.timestamp .microsecond (some icebergTz))]

theorem typed_toRow_row (r : TradeRow) : typed columnTypes r.toRow = true := by
  have h : ∀ {α : Type} (o : Option α) (f : α → Value) (t : DataType),
      (∀ a, (f a).dataType = t) → ((o.map f).all fun v => v.dataType == t) = true := by
    intro α o f t hf
    cases o with
    | none => rfl
    | some a => exact beq_iff_eq.2 (hf a)
  simp only [columnTypes, TradeRow.toRow, typed, Bool.and_eq_true]
  and_intros
  all_goals first | exact h _ _ _ fun _ => rfl | trivial

theorem read_toRow_row (r : TradeRow) : TradeRow.read schema r.toRow = r := by
  obtain ⟨a, b, c, d, e, f, g, h, i, j, k⟩ := r
  have hm : ∀ {α : Type} (o : Option α) (f : α → Value) (g : Value → Option α),
      (∀ a, g (f a) = some a) → (o.map f).bind g = o := by
    intro α o f g hg
    cases o with
    | none => rfl
    | some a => exact hg a
  have hcell : ∀ n, Schema.cell schema (TradeRow.toRow ⟨a, b, c, d, e, f, g, h, i, j, k⟩) n =
      ((schema.names.zip (TradeRow.toRow ⟨a, b, c, d, e, f, g, h, i, j, k⟩)).lookup n).join :=
    fun _ => rfl
  simp only [TradeRow.read, hcell, TradeRow.mk.injEq]
  and_intros <;> exact hm _ _ _ fun _ => rfl

/-- What one loop iteration of `to_record_batch` appends to the eleven builders, in order. -/
def TradeEvent.toRow (row : TradeEvent) : Row :=
  let tradeTimeMs := row.tradeTime.toInt64
  let eventTimeMs := row.eventTime.toInt64
  [some (.int64 eventTimeMs),
    some (.utf8 row.symbol),
    some (.utf8 row.exchange),
    some (.int64 row.tradeId.toInt64),
    some (.float64 row.price),
    some (.float64 row.quantity),
    some (.int64 tradeTimeMs),
    some (.boolean row.isBuyerMaker),
    some (.boolean row.isBestPriceMatch),
    some (.timestamp .microsecond (some icebergTz) (tradeTimeMs * microsPerMilli)),
    some (.timestamp .microsecond (some icebergTz) (eventTimeMs * microsPerMilli))]

/-- An event is written as its row. -/
theorem toRow_ofEvent (e : TradeEvent) : (TradeRow.ofEvent e).toRow = e.toRow := rfl

theorem typed_toRow (e : TradeEvent) : typed columnTypes e.toRow = true := by
  rw [← toRow_ofEvent]
  exact typed_toRow_row _

theorem read_toRow (e : TradeEvent) : TradeRow.read schema e.toRow = TradeRow.ofEvent e := by
  rw [← toRow_ofEvent]
  exact read_toRow_row _

/-- The eleven finished arrays. -/
def eventColumns (rows : List TradeEvent) : Columns where
  types := columnTypes
  rows := rows.map TradeEvent.toRow
  typed r hr := by
    obtain ⟨e, -, rfl⟩ := List.mem_map.1 hr
    exact typed_toRow e

/-- Turns a micro-batch of decoded trade events into one Arrow batch. -/
def toRecordBatch (arrowSchema : Schema) (rows : List TradeEvent) : Except Error RecordBatch :=
  (RecordBatch.tryNew arrowSchema (eventColumns rows)).withContext
    "failed to build arrow record batch"

theorem types_schema : schema.types = columnTypes := rfl

theorem nullsOk_toRow (s : Schema) (e : TradeEvent) : nullsOk s e.toRow = true := by
  have h : ∀ c ∈ e.toRow, c.isSome = true := by simp [TradeEvent.toRow]
  rw [nullsOk, List.all_eq_true]
  rintro ⟨f, c⟩ hfc
  simp [h c (List.of_mem_zip hfc).2]

/-- Under the table's own schema the conversion succeeds, and reads back as the events' rows. -/
theorem toRecordBatch_schema (rows : List TradeEvent) :
    ∃ b, toRecordBatch schema rows = .ok b ∧ b.schema = schema ∧
      trades b = rows.map TradeRow.ofEvent := by
  have hn : ∀ r ∈ (eventColumns rows).rows, nullsOk schema r = true := fun r hr => by
    obtain ⟨e, -, rfl⟩ := List.mem_map.1 hr
    exact nullsOk_toRow schema e
  obtain ⟨b, hb⟩ := RecordBatch.tryNew_isOk.2 ⟨types_schema.symm, hn⟩
  obtain ⟨-, -, hs, hr⟩ := RecordBatch.tryNew_eq_ok.1 hb
  refine ⟨b, by rw [toRecordBatch, hb]; rfl, hs, ?_⟩
  rw [trades, hs, hr, eventColumns, List.map_map]
  exact List.map_congr_left fun e _ => read_toRow e

/-! ## Rows of a query -/

/-- No column of the row is NULL. -/
def TradeRow.full (r : TradeRow) : Bool := r.toRow.all (·.isSome)

theorem full_iff {r : TradeRow} : r.full = true ↔
    r.eventTime.isSome ∧ r.symbol.isSome ∧ r.exchange.isSome ∧ r.tradeId.isSome ∧
      r.price.isSome ∧ r.quantity.isSome ∧ r.tradeTime.isSome ∧ r.isBuyerMaker.isSome ∧
      r.isBestPriceMatch.isSome ∧ r.tradeTs.isSome ∧ r.eventTs.isSome := by
  simp only [TradeRow.full, TradeRow.toRow, List.all_cons, List.all_nil, Option.isSome_map,
    Bool.and_eq_true, Bool.and_true]

/-- The schema of a query over the eleven columns. -/
def outputSchema : Schema := schema.map fun f => { f with nullable := true }

/-- Query output as a batch. -/
def outputBatch (rows : List TradeRow) : RecordBatch where
  schema := outputSchema
  rows := rows.map TradeRow.toRow
  typed r hr := by
    obtain ⟨t, -, rfl⟩ := List.mem_map.1 hr
    exact typed_toRow_row t
  nulls r _ := List.all_eq_true.2 fun fc hfc => by
    obtain ⟨f, -, hf⟩ := List.mem_map.1 (List.of_mem_zip hfc).1
    rw [← hf]
    rfl

/-- Query output binds to the table's schema when no cell is NULL, and is read back as it is. -/
theorem tryNew_outputBatch {rows : List TradeRow} :
    (∃ b, RecordBatch.tryNew schema (outputBatch rows).columns = .ok b) ↔
      ∀ r ∈ rows, r.full = true := by
  have hfull : ∀ r : TradeRow, nullsOk schema r.toRow = r.full := fun r => by
    simp only [nullsOk, schema, arrowSchema, tableSchema, List.map, TradeRow.full, TradeRow.toRow,
      List.zip_cons_cons, List.all_cons, Bool.not_true, Bool.false_or, List.zip_nil_left]
    rfl
  rw [RecordBatch.tryNew_isOk]
  refine ⟨fun h r hr => ?_, fun h => ⟨rfl, fun r hr => ?_⟩⟩
  · rw [← hfull]
    exact h.2 _ (List.mem_map_of_mem hr)
  · obtain ⟨t, ht, rfl⟩ := List.mem_map.1 hr
    rw [hfull]
    exact h t ht

/-- Filtering a batch on what its rows read as filters the rows. -/
theorem trades_filter (b : RecordBatch) (p : TradeRow → Bool) :
    trades (b.filter fun r => p (TradeRow.read b.schema r)) = (trades b).filter p := by
  simp only [trades, RecordBatch.filter_rows, RecordBatch.filter_schema, List.filter_map]
  rfl

end Trades
