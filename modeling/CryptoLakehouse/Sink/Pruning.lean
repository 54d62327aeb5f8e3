import CryptoLakehouse.Schema
import CryptoLakehouse.Lib.Brackets
import CryptoLakehouse.Lib.Int64
import CryptoLakehouse.Lib.Kleene

/-!
# The pruning predicate of the dedup probe

`buildPruningExpr batch schema` restricts the committed rows that the anti-join looks at: one
`trade_ts` range per `(exchange, UTC day)` of the batch, in the unit of the table's `trade_ts`.
`Expr` is the predicate as DataFusion is handed it and `Expr.eval` its three-valued value on a row.

`eval_buildPruningExpr`: the predicate holds of a row exactly when the row's exchange and timestamp
lie in one of the batch's brackets (`Bracket.IsBracket`), whatever order the hash map of the groups
is iterated in (`HashOrder`).
-/

namespace Sink

open Arrow Trades

/-! ## Predicates -/

inductive CmpOp
  | eq | gtEq | ltEq
deriving DecidableEq, Repr

inductive Expr
  | lit (b : Bool)
  | cmp (op : CmpOp) (col : String) (v : Value)
  | and (a b : Expr)
  | or (a b : Expr)

def CmpOp.test {α : Type} [LE α] [DecidableLE α] [DecidableEq α] (op : CmpOp) (a b : α) : Bool :=
  match op with
  | .eq => a == b
  | .gtEq => b ≤ a
  | .ltEq => a ≤ b

/-- Two non-NULL values of one type compared; NULL for types that do not compare. -/
def CmpOp.eval (op : CmpOp) : Value → Value → Option Bool
  | .int32 a, .int32 b => some (op.test a b)
  | .int64 a, .int64 b => some (op.test a b)
  | .utf8 a, .utf8 b => some (op.test a b)
  | .timestamp u z a, .timestamp u' z' b =>
    if u = u' ∧ z = z' then some (op.test a b) else none
  | _, _ => none

/-- The value of a predicate on a row given by its cells. -/
def Expr.eval (cell : String → Cell) : Expr → Option Bool
  | .lit b => some b
  | .cmp op col v => (cell col).bind fun c => op.eval c v
  | .and a b => Kleene.and (a.eval cell) (b.eval cell)
  | .or a b => Kleene.or (a.eval cell) (b.eval cell)

/-- The cells of a row of a table whose timestamp columns have the given unit and zone. -/
def rowCell (unit : TimeUnit) (tz : Option String) (r : TradeRow) (col : String) : Cell :=
  match col with
  | "event_time" => r.eventTime.map .int64
  | "symbol" => r.symbol.map .utf8
  | "exchange" => r.exchange.map .utf8
  | "trade_id" => r.tradeId.map .int64
  | "price" => r.price.map .float64
  | "quantity" => r.quantity.map .float64
  | "trade_time" => r.tradeTime.map .int64
  | "is_buyer_maker" => r.isBuyerMaker.map .boolean
  | "is_best_price_match" => r.isBestPriceMatch.map .boolean
  | "trade_ts" => r.tradeTs.map (.timestamp unit tz)
  | "event_ts" => r.eventTs.map (.timestamp unit tz)
  | _ => none

theorem rowCell_exchange (unit : TimeUnit) (tz : Option String) (r : TradeRow) :
    rowCell unit tz r "exchange" = r.exchange.map .utf8 := rfl

theorem rowCell_tradeTs (unit : TimeUnit) (tz : Option String) (r : TradeRow) :
    rowCell unit tz r "trade_ts" = r.tradeTs.map (.timestamp unit tz) := rfl

/-! ## Building the predicate -/

/-- A column by name, downcast to an array type; `typeName` is the type's name without its path. -/
def colAs {α : Type} (isType : DataType → Bool) (typeName : String) (get : Value → Option α)
    (batch : RecordBatch) (name : String) : Except Error (List (Option α)) :=
  match batch.schema.find? (·.name == name) with
  | none => .error (.msg s!"missing column `{name}`")
  | some f =>
    if isType f.dataType then .ok (batch.rows.map fun r => (batch.schema.cell r name).bind get)
    else .error (.msg s!"column `{name}` not a {typeName}")

def isTimestampMicrosecond : DataType → Bool
  | .timestamp .microsecond _ => true
  | _ => false

/-- `col_as::<TimestampMicrosecondArray>`. -/
def colAsTimestampMicrosecond : RecordBatch → String → Except Error (List (Option Int64)) :=
  colAs isTimestampMicrosecond "TimestampMicrosecondArray" Value.timestamp?

/-- `col_as::<StringArray>`. -/
def colAsString : RecordBatch → String → Except Error (List (Option String)) :=
  colAs (· == .utf8) "StringArray" Value.utf8?

def microsPerDay : Int64 := 86400000000

/-- A microsecond count in the unit of the table's `trade_ts`. -/
def tsCount (unit : TimeUnit) (v : Int64) : Except Error Int64 :=
  match unit with
  | .microsecond => .ok v
  | .nanosecond =>
    if Int64.minValue.toInt ≤ v.toInt * 1000 ∧ v.toInt * 1000 ≤ Int64.maxValue.toInt then
      .ok (.ofInt (v.toInt * 1000))
    else .error (.msg "ns overflow")
  | .millisecond => .ok (v.divEuclid 1000)
  | .second => .ok (v.divEuclid 1000000)

/-- The literal a bound is compared with: of the very type of the table's `trade_ts`. -/
def tsLit (tsDt : DataType) (v : Int64) : Except Error Value :=
  match tsDt with
  | .timestamp unit tz => (tsCount unit v).map (.timestamp unit tz)
  | other => .error (.panic s!"iceberg `trade_ts` is {repr other}, expected a timestamp")

/-- An entry of the `(exchange, day) → ts bounds` map. -/
abbrev Group := (String × Int64) × Int64 × Int64

/-- The order a hash map's entries are iterated in. -/
structure HashOrder where
  apply : List Group → List Group
  perm : ∀ groups, (apply groups).Perm groups

/-- The order in which the entries were made. -/
def HashOrder.inserted : HashOrder := ⟨id, fun _ => .rfl⟩

/-- The `((exchange, day), trade_ts)` of a row with none of the three columns NULL. -/
def groupOf (row : Option Int64 × Option String × Option String) :
    Option ((String × Int64) × Int64) :=
  match row with
  | (some t, some e, some _) => some ((e, t.divEuclid microsPerDay), t)
  | _ => none

/-- One range of the predicate. -/
def groupExpr (tsDt : DataType) (g : Group) : Except Error Expr := do
  let ll ← tsLit tsDt g.2.1
  let hh ← tsLit tsDt g.2.2
  return .and (.and (.cmp .eq "exchange" (.utf8 g.1.1)) (.cmp .gtEq "trade_ts" ll))
    (.cmp .ltEq "trade_ts" hh)

/-- `reduce(Expr::or)`. -/
def reduceOr : List Expr → Option Expr
  | [] => none
  | e :: es => some (es.foldl .or e)

def buildPruningExpr (order : HashOrder) (batch : RecordBatch) (schema : Schema) :
    Except Error Expr := do
  let tsDt ← match schema.find? (·.name == "trade_ts") with
    | some f => pure f.dataType
    | none => throw (.msg "iceberg schema has no `trade_ts`")
  let ts ← colAsTimestampMicrosecond batch "trade_ts"
  let ex ← colAsString batch "exchange"
  let sym ← colAsString batch "symbol"
  let groups := Bracket.ofList .maxValue .minValue ((ts.zip (ex.zip sym)).filterMap groupOf)
  let ranges ← (order.apply groups).mapM (groupExpr tsDt)
  return (reduceOr ranges).getD (.lit false)

/-! ## Its meaning -/

theorem eval_foldl_or {cell : String → Cell} : ∀ {es : List Expr} {e : Expr},
    (es.foldl Expr.or e).eval cell = some true ↔ ∃ e' ∈ e :: es, e'.eval cell = some true
  | [], e => by simp
  | e₁ :: es, e => by
    rw [List.foldl_cons, eval_foldl_or]
    simp only [List.mem_cons, exists_eq_or_imp, Expr.eval, Kleene.or_eq_true, or_assoc]

theorem eval_reduceOr {cell : String → Cell} {es : List Expr} :
    ((reduceOr es).getD (.lit false)).eval cell = some true ↔ ∃ e ∈ es, e.eval cell = some true := by
  cases es with
  | nil => simp [reduceOr, Expr.eval]
  | cons e es => simp only [reduceOr, Option.getD_some, eval_foldl_or]

theorem mem_of_mapM_ok {α β : Type} {f : α → Except Error β} : ∀ {l : List α} {bs : List β},
    l.mapM f = .ok bs → ∀ b, b ∈ bs ↔ ∃ a ∈ l, f a = .ok b
  | [], bs, h, b => by
    cases h
    simp
  | a :: l, bs, h, b => by
    simp only [List.mapM_cons, Except.bind_eq_ok] at h
    obtain ⟨b₀, hb₀, bs₀, hbs₀, h⟩ := h
    cases h
    simp only [List.mem_cons, mem_of_mapM_ok hbs₀, exists_eq_or_imp, hb₀, Except.ok.injEq,
      eq_comm (a := b)]

theorem mapM_ok {α β : Type} {f : α → Except Error β} {l : List α}
    (h : ∀ a ∈ l, ∃ b, f a = .ok b) : ∃ bs, l.mapM f = .ok bs := by
  induction l with
  | nil => exact ⟨[], rfl⟩
  | cons a l ih =>
    obtain ⟨b, hb⟩ := h a List.mem_cons_self
    obtain ⟨bs, hbs⟩ := ih fun a ha => h a (List.mem_cons_of_mem _ ha)
    exact ⟨b :: bs, by simp [List.mapM_cons, hb, hbs, bind, Except.bind, pure, Except.pure]⟩

theorem eval_utf8_eq {c : Option String} {v : String} :
    ((c.map Value.utf8).bind fun x => CmpOp.eq.eval x (.utf8 v)) = some true ↔ c = some v := by
  cases c with
  | none => exact ⟨nofun, nofun⟩
  | some x =>
    show some (x == v) = some true ↔ some x = some v
    rw [Option.some.injEq, Option.some.injEq, beq_iff_eq]

theorem eval_timestamp {unit : TimeUnit} {tz : Option String} {op : CmpOp} {c : Option Int64}
    {v : Int64} : ((c.map (Value.timestamp unit tz)).bind fun x =>
      op.eval x (.timestamp unit tz v)) = some true ↔ ∃ x, c = some x ∧ op.test x v = true := by
  cases c with
  | none => exact ⟨nofun, fun ⟨_, h, _⟩ => nomatch h⟩
  | some x =>
    show (if unit = unit ∧ tz = tz then some (op.test x v) else none) = some true ↔ _
    rw [if_pos ⟨rfl, rfl⟩, Option.some.injEq]
    exact ⟨fun h => ⟨x, rfl, h⟩, fun ⟨_, hx, h⟩ => Option.some.inj hx ▸ h⟩

/-- A group whose bounds have counts has a range. -/
theorem groupExpr_ok {unit : TimeUnit} {tz : Option String} {g : Group} {lo hi : Int64}
    (hlo : tsCount unit g.2.1 = .ok lo) (hhi : tsCount unit g.2.2 = .ok hi) :
    ∃ e, groupExpr (.timestamp unit tz) g = .ok e := by
  simp [groupExpr, tsLit, hlo, hhi, Except.map, bind, Except.bind, pure, Except.pure]

/-- A range holds of the rows of its exchange whose timestamp is between its bounds. -/
theorem eval_groupExpr {unit : TimeUnit} {tz : Option String} {g : Group} {e : Expr}
    (h : groupExpr (.timestamp unit tz) g = .ok e) (r : TradeRow) :
    e.eval (rowCell unit tz r) = some true ↔ r.exchange = some g.1.1 ∧
      ∃ v lo hi, r.tradeTs = some v ∧ tsCount unit g.2.1 = .ok lo ∧ tsCount unit g.2.2 = .ok hi ∧
        lo ≤ v ∧ v ≤ hi := by
  simp only [groupExpr, tsLit, bind, Except.bind] at h
  cases hlo : tsCount unit g.2.1 with
  | error x => simp [hlo, Except.map] at h
  | ok lo =>
    cases hhi : tsCount unit g.2.2 with
    | error x => simp [hlo, hhi, Except.map] at h
    | ok hi =>
      simp only [hlo, hhi, Except.map, pure, Except.pure, Except.ok.injEq] at h
      subst h
      simp only [Expr.eval, Kleene.and_eq_true, rowCell_exchange, rowCell_tradeTs, eval_utf8_eq,
        eval_timestamp, and_assoc, Except.ok.injEq]
      refine and_congr_right fun _ => ⟨?_, ?_⟩
      · intro h
        obtain ⟨⟨v, hv, hlv⟩, v', hv', hvh⟩ := h
        obtain rfl := Option.some.inj (hv.symm.trans hv')
        exact ⟨v, lo, hi, hv, rfl, rfl, of_decide_eq_true hlv, of_decide_eq_true hvh⟩
      · intro h
        obtain ⟨v, lo', hi', hv, hl, hh, hlv, hvh⟩ := h
        subst hl hh
        exact ⟨⟨v, hv, decide_eq_true hlv⟩, v, hv, decide_eq_true hvh⟩

/-- The pairs the brackets are taken over: the rows of a batch with no NULL in `exchange`, `symbol`
and `trade_ts`. -/
def groupRows (rows : List TradeRow) : List ((String × Int64) × Int64) :=
  rows.filterMap fun r => groupOf (r.tradeTs, r.exchange, r.symbol)

theorem colAs_map {α : Type} {isType : DataType → Bool} {typeName : String}
    {get : Value → Option α} {batch : RecordBatch} {name : String} {col : List (Option α)}
    (h : colAs isType typeName get batch name = .ok col) :
    col = batch.rows.map fun r => (batch.schema.cell r name).bind get := by
  unfold colAs at h
  split at h
  · cases h
  · split at h
    · cases h; rfl
    · cases h

theorem groups_eq {batch : RecordBatch} {ts : List (Option Int64)} {ex sym : List (Option String)}
    (hts : colAsTimestampMicrosecond batch "trade_ts" = .ok ts)
    (hex : colAsString batch "exchange" = .ok ex) (hsym : colAsString batch "symbol" = .ok sym) :
    (ts.zip (ex.zip sym)).filterMap groupOf = groupRows (trades batch) := by
  rw [colAs_map hts, colAs_map hex, colAs_map hsym, List.zip_map', List.zip_map',
    List.filterMap_map, groupRows, trades, List.filterMap_map]
  rfl

/-- The predicate can be built when the columns are there and no bound overflows. -/
theorem buildPruningExpr_ok (order : HashOrder) {batch : RecordBatch} {schema : Schema}
    {unit : TimeUnit} {tz : Option String} {f : Field}
    (hf : schema.find? (·.name == "trade_ts") = some f) (hdt : f.dataType = .timestamp unit tz)
    (hts : ∃ ts, colAsTimestampMicrosecond batch "trade_ts" = .ok ts)
    (hex : ∃ ex, colAsString batch "exchange" = .ok ex)
    (hsym : ∃ sym, colAsString batch "symbol" = .ok sym)
    (hconv : ∀ g t, (g, t) ∈ groupRows (trades batch) → ∃ c, tsCount unit t = .ok c) :
    ∃ e, buildPruningExpr order batch schema = .ok e := by
  obtain ⟨ts, hts⟩ := hts
  obtain ⟨ex, hex⟩ := hex
  obtain ⟨sym, hsym⟩ := hsym
  have hg := groups_eq hts hex hsym
  have hranges : ∃ es, (order.apply (Bracket.ofList .maxValue .minValue
      (groupRows (trades batch)))).mapM (groupExpr (.timestamp unit tz)) = .ok es := by
    refine mapM_ok fun g hm => ?_
    rw [(order.perm _).mem_iff, Bracket.mem_ofList Int64.le_maxVal Int64.minVal_le] at hm
    obtain ⟨lo, hlo⟩ := hconv _ _ hm.1
    obtain ⟨hi, hhi⟩ := hconv _ _ hm.2.1
    exact groupExpr_ok hlo hhi
  obtain ⟨es, hes⟩ := hranges
  refine ⟨(reduceOr es).getD (.lit false), ?_⟩
  simp only [buildPruningExpr, hf, hdt, hts, hex, hsym, hg, hes, bind, Except.bind, pure,
    Except.pure]

/-- **The predicate is the union of the batch's brackets.** -/
theorem eval_buildPruningExpr {order : HashOrder} {batch : RecordBatch} {schema : Schema}
    {unit : TimeUnit} {tz : Option String} {f : Field} {e : Expr}
    (hf : schema.find? (·.name == "trade_ts") = some f) (hdt : f.dataType = .timestamp unit tz)
    (h : buildPruningExpr order batch schema = .ok e) (r : TradeRow) :
    e.eval (rowCell unit tz r) = some true ↔ ∃ ex day lo hi,
      Bracket.IsBracket (groupRows (trades batch)) (ex, day) lo hi ∧ r.exchange = some ex ∧
      ∃ v lo' hi', r.tradeTs = some v ∧ tsCount unit lo = .ok lo' ∧ tsCount unit hi = .ok hi' ∧
        lo' ≤ v ∧ v ≤ hi' := by
  simp only [buildPruningExpr, hf, hdt, Except.bind_eq_ok] at h
  obtain ⟨_, hunit, ts, hts, ex, hex, sym, hsym, ranges, hr, h⟩ := h
  cases hunit
  cases h
  rw [groups_eq hts hex hsym] at hr
  rw [eval_reduceOr]
  refine ⟨fun hl => ?_, fun hl => ?_⟩
  · obtain ⟨e', he', hev⟩ := hl
    obtain ⟨⟨⟨x, day⟩, lo, hi⟩, hm, hge⟩ := (mem_of_mapM_ok hr e').1 he'
    rw [(order.perm _).mem_iff, Bracket.mem_ofList Int64.le_maxVal Int64.minVal_le] at hm
    exact ⟨x, day, lo, hi, hm, (eval_groupExpr hge r).1 hev⟩
  · obtain ⟨x, day, lo, hi, hm, hx, v, lo', hi', hv, hlo, hhi, hle⟩ := hl
    rw [← Bracket.mem_ofList Int64.le_maxVal Int64.minVal_le, ← (order.perm _).mem_iff] at hm
    obtain ⟨e', hge⟩ := @groupExpr_ok unit tz ((x, day), lo, hi) _ _ hlo hhi
    exact ⟨e', (mem_of_mapM_ok hr e').2 ⟨_, hm, hge⟩,
      (eval_groupExpr hge r).2 ⟨hx, v, lo', hi', hv, hlo, hhi, hle⟩⟩

end Sink
