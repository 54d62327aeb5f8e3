import CryptoLakehouse.Lib.Fallible
import CryptoLakehouse.Schema

/-!
# Text frames

What the collector does with what it reads from a websocket: `handle_message` deserialises a text
frame to the exchange's payload and publishes the payload's event, `the_big_loop` handles one item
after the other. Of the loop's `select!` this is the branch of `read.next()`.

What the libraries do is a parameter, `Libs`; of `serde_json` it is the reading of the text, and the
deserialisers that are derived from the structs are below.
-/

namespace Collector

open Arrow Fallible Trades

/-! ## JSON -/

/-- A number by the visitor method it is given to. -/
inductive Number
  /-- `visit_u64` -/
  | posInt (n : UInt64)
  /-- `visit_i64` -/
  | negInt (n : Int64)
  /-- `visit_f64` -/
  | float (f : F64)

inductive Json
  | null
  | bool (b : Bool)
  | num (n : Number)
  | str (s : String)
  | arr (items : List Json)
  | obj (members : List (String × Json))
  /-- A value that can be skipped and not read: a number out of range, a lone surrogate. -/
  | unreadable

structure Libs where
  /-- What `serde_json` makes of a text, when it is JSON. -/
  parse : String → Option Json
  /-- `str::parse::<f64>` -/
  parseF64 : String → Option F64
  /-- `as f64` -/
  ofU64 : UInt64 → F64
  /-- `as f64` -/
  ofI64 : Int64 → F64
  /-- `encode` of prost, which does not fail. -/
  encode : TradeEvent → List UInt8

namespace Json

def str? : Json → Option String
  | str s => some s
  | _ => none

def bool? : Json → Option Bool
  | bool b => some b
  | _ => none

def u64? : Json → Option UInt64
  | num (.posInt n) => some n
  | num (.negInt n) => if 0 ≤ n then some n.toUInt64 else none
  | _ => none

/-- The value of a name that exactly one member has. -/
def member (members : List (String × Json)) (name : String) : Option Json :=
  match members.filter fun m => m.1 == name with
  | [m] => some m.2
  | _ => none

/-- `deserialize_struct`: a derived visitor takes an object, whose other members it ignores, or an
array of the fields in order. `visit` reads the value of each field. -/
def struct {α : Type} (fields : List String) (visit : (String → Option Json) → Option α) :
    Json → Option α
  | obj members => visit (member members)
  | arr items =>
    if items.length = fields.length then visit fun name => (fields.zip items).lookup name else none
  | _ => none

end Json

/-! ## The payload -/

structure TradeEventBinance where
  eventType : String
  eventTime : UInt64
  symbol : String
  tradeId : UInt64
  price : F64
  quantity : F64
  tradeTime : UInt64
  isBuyerMaker : Bool
  isBestPriceMatch : Bool
deriving DecidableEq

structure BinanceStreamPayload where
  stream : String
  data : TradeEventBinance
deriving DecidableEq

/-- The visitor `StringOrFloat`: it has `visit_str` and `visit_f64`. -/
def stringToF64 (libs : Libs) : Json → Option F64
  | .str s => libs.parseF64 s
  | .num (.float f) => some f
  | _ => none

def TradeEventBinance.fields : List String := ["e", "E", "s", "t", "p", "q", "T", "m", "M"]

/-- `number` is what `price` and `quantity` are deserialised with. -/
def TradeEventBinance.visit (number : Json → Option F64) (value : String → Option Json) :
    Option TradeEventBinance := do
  let eventType ← (value "e").bind Json.str?
  let eventTime ← (value "E").bind Json.u64?
  let symbol ← (value "s").bind Json.str?
  let tradeId ← (value "t").bind Json.u64?
  let price ← (value "p").bind number
  let quantity ← (value "q").bind number
  let tradeTime ← (value "T").bind Json.u64?
  let isBuyerMaker ← (value "m").bind Json.bool?
  let isBestPriceMatch ← (value "M").bind Json.bool?
  return ⟨eventType, eventTime, symbol, tradeId, price, quantity, tradeTime, isBuyerMaker,
    isBestPriceMatch⟩

def TradeEventBinance.deserialize (libs : Libs) : Json → Option TradeEventBinance :=
  Json.struct fields (visit (stringToF64 libs))

def BinanceStreamPayload.fields : List String := ["stream", "data"]

/-- `data` is what the field of that name is deserialised with. -/
def BinanceStreamPayload.visit (data : Json → Option TradeEventBinance)
    (value : String → Option Json) : Option BinanceStreamPayload := do
  let stream ← (value "stream").bind Json.str?
  let data ← (value "data").bind data
  return ⟨stream, data⟩

def BinanceStreamPayload.deserialize (libs : Libs) : Json → Option BinanceStreamPayload :=
  Json.struct fields (visit (TradeEventBinance.deserialize libs))

/-- `From<TradeEventBinance> for TradeEventProto` -/
def TradeEventBinance.into (event : TradeEventBinance) : TradeEvent where
  eventTime := event.eventTime
  symbol := event.symbol
  exchange := "BINANCE"
  tradeId := event.tradeId
  price := event.price
  quantity := event.quantity
  tradeTime := event.tradeTime
  isBuyerMaker := event.isBuyerMaker
  isBestPriceMatch := event.isBestPriceMatch

def BinanceStreamPayload.into (payload : BinanceStreamPayload) : TradeEvent := payload.data.into

/-! ## The loop -/

/-- One implementation of `Exchange<T, P>`. -/
structure Exchange (T : Type) where
  name : String
  deserialize : Json → Option T
  into : T → TradeEvent

def binanceExchange (libs : Libs) : Exchange BinanceStreamPayload where
  name := "BINANCE"
  deserialize := BinanceStreamPayload.deserialize libs
  into := BinanceStreamPayload.into

/-- A call of `publish_trade`. -/
structure Publish where
  subject : String
  eventBytes : List UInt8
deriving DecidableEq

/-- The collector with the calls of its publisher so far. -/
abbrev FeedM := EStateM Error (List Publish)

/-- The publisher answers its `i`-th call with `replies i`. -/
def publishTrade (replies : Nat → Reply) (subject : String) (eventBytes : List UInt8) :
    FeedM Reply := do
  let published ← get
  set (published ++ [⟨subject, eventBytes⟩])
  return replies published.length

section
variable {T : Type} (libs : Libs) (replies : Nat → Reply) (exchange : Exchange T)

def Exchange.handleMessage (messageTxt : String) : FeedM Unit := do
  match (libs.parse messageTxt).bind exchange.deserialize with
  | none => throw (.panic "called `Result::unwrap()` on an `Err` value")
  | some myData =>
    let reply ← publishTrade replies ("exchange." ++ exchange.name)
      (libs.encode (exchange.into myData))
    match reply with
    | .ok _ => return
    | .error _ => return

/-- What `read.next()` returns. -/
inductive Item
  /-- `Some(Ok(TMsg::Text(txt)))` -/
  | text (txt : String)
  /-- Any other `Some(Ok(_))`. -/
  | other
  /-- `Some(Err(_))` -/
  | error
  /-- `None` -/
  | ended

/-- Where the loop is. -/
inductive Flow
  | reading
  /-- After `break`. -/
  | stopped
deriving DecidableEq

/-- The loop on the items that are read. -/
def Exchange.theBigLoop : List Item → FeedM Flow
  | [] => return .reading
  | .text txt :: items => do
    exchange.handleMessage libs replies txt
    Exchange.theBigLoop items
  | .other :: items => Exchange.theBigLoop items
  | .error :: _ => return .stopped
  | .ended :: _ => return .stopped

end

end Collector
