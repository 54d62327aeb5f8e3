import CryptoLakehouse.Collector.Message

/-!
# Which frames the feed survives

A payload as the exchange may send it is an object whose price and quantity are strings or numbers
of any spelling (`Libs.payload`); the feed should publish these and skip every other frame
(`Survives`).

* `theBigLoop_ok_iff` — the loop gets through the frames that deserialise, with one publish each,
  and panics at the first that does not.
* `survives_iff` — so it does what it should when every frame is a payload, and no price or quantity
  is an integer literal.
-/

namespace Collector

open Arrow Fallible Trades

/-! ## What the feed should do -/

/-- A price or a quantity: a string that is an `f64`, or a number. -/
def Libs.number (libs : Libs) : Json → Option F64
  | .str s => libs.parseF64 s
  | .num (.posInt n) => some (libs.ofU64 n)
  | .num (.negInt n) => some (libs.ofI64 n)
  | .num (.float f) => some f
  | _ => none

def Json.object {α : Type} (visit : (String → Option Json) → Option α) : Json → Option α
  | .obj members => visit (Json.member members)
  | _ => none

/-- The stream payload that a text is. -/
def Libs.payload (libs : Libs) (txt : String) : Option BinanceStreamPayload :=
  (libs.parse txt).bind <| Json.object <| BinanceStreamPayload.visit <| Json.object <|
    TradeEventBinance.visit libs.number

/-- What a text should have published. -/
def Libs.wanted (libs : Libs) (txt : String) : Option Publish :=
  (libs.payload txt).map fun payload => ⟨"exchange.BINANCE", libs.encode payload.into⟩

/-- The loop gets through the frames, publishes the payloads among them in order, and reads on. -/
def Survives (libs : Libs) (replies : Nat → Reply) (frames : List String) : Prop :=
  (binanceExchange libs).theBigLoop libs replies (frames.map .text) [] =
    .ok .reading (frames.filterMap libs.wanted)

def Json.isInteger : Json → Bool
  | .num (.posInt _) => true
  | .num (.negInt _) => true
  | _ => false

/-- The value of a name, in an object. -/
def Json.get (name : String) : Json → Option Json
  | .obj members => Json.member members name
  | _ => none

/-- The frame's price or quantity is an integer literal. -/
def Libs.HasInteger (libs : Libs) (txt : String) : Prop :=
  ∃ name ∈ ["p", "q"], ∃ v,
    ((libs.parse txt).bind (Json.get "data")).bind (Json.get name) = some v ∧ v.isInteger = true

section
variable {libs : Libs} {replies : Nat → Reply} {txt : String} {v : Json}
  {number : Json → Option F64} {value : String → Option Json} {event : TradeEventBinance}
  {payload : BinanceStreamPayload}

/-! ## Prices and quantities -/

theorem stringToF64_eq (h : v.isInteger = false) : stringToF64 libs v = libs.number v := by
  cases v with
  | num n =>
    cases n with
    | posInt _ => cases h
    | negInt _ => cases h
    | float _ => rfl
  | _ => rfl

/-- The visitor has no method for an integer literal. -/
theorem stringToF64_integer (h : v.isInteger = true) : stringToF64 libs v = none := by
  cases v with
  | num n =>
    cases n with
    | posInt _ => rfl
    | negInt _ => rfl
    | float _ => cases h
  | _ => cases h

theorem visit_numbers (h : TradeEventBinance.visit number value = some event) :
    ∀ name ∈ ["p", "q"], ((value name).bind number).isSome := by
  simp only [TradeEventBinance.visit, Option.bind_eq_bind, Option.bind_eq_some_iff] at h
  obtain ⟨-, -, -, -, -, -, -, -, price, ⟨p, hp, hp'⟩, quantity, ⟨q, hq, hq'⟩, -⟩ := h
  intro name hn
  simp only [List.mem_cons, List.not_mem_nil, or_false] at hn
  rcases hn with rfl | rfl
  · simp [hp, hp']
  · simp [hq, hq']

/-- Without an integer literal the two readings of an event agree. -/
theorem visit_eq (h : ∀ name ∈ ["p", "q"], ∀ v, value name = some v → v.isInteger = false) :
    TradeEventBinance.visit (stringToF64 libs) value =
      TradeEventBinance.visit libs.number value := by
  have hbind : ∀ name ∈ ["p", "q"],
      (value name).bind (stringToF64 libs) = (value name).bind libs.number := by
    intro name hn
    cases hv : value name with
    | none => rfl
    | some v => exact stringToF64_eq (h name hn v hv)
  unfold TradeEventBinance.visit
  rw [hbind "p" (by simp), hbind "q" (by simp)]

/-- An event that deserialises has no integer literal. -/
theorem not_integer_of_visit (h : TradeEventBinance.visit (stringToF64 libs) value = some event) :
    ∀ name ∈ ["p", "q"], ∀ v, value name = some v → v.isInteger = false := by
  intro name hn v hv
  have hsome := visit_numbers h name hn
  by_contra hi
  rw [Bool.not_eq_false] at hi
  rw [hv, Option.bind_some, stringToF64_integer hi] at hsome
  cases hsome

/-! ## One frame -/

/-- What the collector makes of a text. -/
def Libs.accepted (libs : Libs) (txt : String) : Option BinanceStreamPayload :=
  (libs.parse txt).bind (BinanceStreamPayload.deserialize libs)

theorem object_eq_some {α : Type} {visit : (String → Option Json) → Option α} {a : α} :
    Json.object visit v = some a ↔
      ∃ members, v = .obj members ∧ visit (Json.member members) = some a := by
  cases v <;> simp [Json.object]

/-- A payload is an object with an object in it, which the collector reads in its own way. -/
theorem payload_parts (h : libs.payload txt = some payload) : ∃ data,
    (libs.HasInteger txt ↔
      ∃ name ∈ ["p", "q"], ∃ v, Json.member data name = some v ∧ v.isInteger = true) ∧
    libs.accepted txt = (TradeEventBinance.visit (stringToF64 libs) (Json.member data)).map
      (fun event => ⟨payload.stream, event⟩) ∧
    TradeEventBinance.visit libs.number (Json.member data) = some payload.data := by
  obtain ⟨j, hj, h⟩ := Option.bind_eq_some_iff.1 h
  obtain ⟨members, hm, h⟩ := object_eq_some.1 h
  subst hm
  unfold BinanceStreamPayload.visit at h
  obtain ⟨stream, hstream, h⟩ := Option.bind_eq_some_iff.1 h
  obtain ⟨event, hevent, h⟩ := Option.bind_eq_some_iff.1 h
  obtain ⟨d, hd, hevent⟩ := Option.bind_eq_some_iff.1 hevent
  obtain ⟨data, hm, hevent⟩ := object_eq_some.1 hevent
  subst hm
  cases h
  refine ⟨data, ?_, ?_, hevent⟩
  · have hdata : (libs.parse txt).bind (Json.get "data") = some (.obj data) := by
      rw [hj]
      exact hd
    unfold Libs.HasInteger
    rw [hdata]
    exact Iff.rfl
  · unfold Libs.accepted
    rw [hj, Option.bind_some]
    show BinanceStreamPayload.visit _ _ = _
    unfold BinanceStreamPayload.visit
    rw [hstream, hd]
    show (TradeEventBinance.visit (stringToF64 libs) (Json.member data) >>= _) = _
    cases TradeEventBinance.visit (stringToF64 libs) (Json.member data) <;> rfl

theorem not_hasInteger (h : libs.payload txt = some payload) (ha : (libs.accepted txt).isSome) :
    ¬libs.HasInteger txt := by
  obtain ⟨data, hint, hacc, -⟩ := payload_parts h
  rw [hacc, Option.isSome_map] at ha
  obtain ⟨event, he⟩ := Option.isSome_iff_exists.1 ha
  rw [hint]
  intro hx
  obtain ⟨name, hn, v, hv, hi⟩ := hx
  rw [not_integer_of_visit he name hn v hv] at hi
  cases hi

/-- **A payload without integer literals** is deserialised to itself. -/
theorem accepted_eq (h : libs.payload txt = some payload) (hno : ¬libs.HasInteger txt) :
    libs.accepted txt = some payload := by
  obtain ⟨data, hint, hacc, hevent⟩ := payload_parts h
  rw [hint] at hno
  rw [hacc, visit_eq fun name hn v hv => Bool.eq_false_iff.2 fun hi => hno ⟨name, hn, v, hv, hi⟩,
    hevent]
  rfl

/-! ## The loop -/

/-- The publish of a text that deserialises. -/
def Libs.published (libs : Libs) (txt : String) : Option Publish :=
  (libs.accepted txt).map fun payload => ⟨"exchange.BINANCE", libs.encode payload.into⟩

section
variable {frames : List String} {log log' : List Publish} {flow : Flow}

theorem publishTrade_apply (subject : String) (eventBytes : List UInt8) :
    publishTrade replies subject eventBytes log =
      .ok (replies log.length) (log ++ [⟨subject, eventBytes⟩]) := rfl

/-- One text: a publish, whatever its answer, or a panic. -/
theorem handleMessage_ok_iff {u : Unit} :
    (binanceExchange libs).handleMessage libs replies txt log = .ok u log' ↔
      ∃ publish, libs.published txt = some publish ∧ log ++ [publish] = log' := by
  have hx : (libs.parse txt).bind (binanceExchange libs).deserialize = libs.accepted txt := rfl
  unfold Exchange.handleMessage Libs.published
  rw [hx]
  cases libs.accepted txt with
  | none => simp
  | some payload =>
    dsimp only
    rw [bind_of_ok (publishTrade_apply _ _)]
    have hsubject : "exchange." ++ (binanceExchange libs).name = "exchange.BINANCE" := rfl
    have hinto : (binanceExchange libs).into payload = payload.into := rfl
    rw [hsubject, hinto]
    cases replies log.length with
    | ok _ => simp
    | error _ => simp

/-- **The loop** gets through the frames that deserialise. -/
theorem theBigLoop_ok_iff : (binanceExchange libs).theBigLoop libs replies (frames.map .text) log =
    .ok flow log' ↔ (∀ txt ∈ frames, (libs.published txt).isSome) ∧ flow = .reading ∧
      log' = log ++ frames.filterMap libs.published := by
  induction frames generalizing log with
  | nil =>
    rw [List.map_nil, Exchange.theBigLoop, pure_apply, EStateM.Result.ok.injEq, eq_comm,
      @eq_comm _ log]
    simp
  | cons txt frames ih =>
    rw [List.map_cons, Exchange.theBigLoop, bind_ok]
    simp only [handleMessage_ok_iff, ih, List.forall_mem_cons]
    refine ⟨fun hx => ?_, fun hx => ?_⟩
    · obtain ⟨-, log₁, ⟨publish, hp, rfl⟩, hall, hflow, hlog⟩ := hx
      refine ⟨⟨by rw [hp]; rfl, hall⟩, hflow, ?_⟩
      rw [hlog, List.filterMap_cons_some hp, List.append_assoc]
      rfl
    · obtain ⟨⟨hp, hall⟩, hflow, hlog⟩ := hx
      obtain ⟨publish, hp⟩ := Option.isSome_iff_exists.1 hp
      refine ⟨(), _, ⟨publish, hp, rfl⟩, hall, hflow, ?_⟩
      rw [hlog, List.filterMap_cons_some hp, List.append_assoc]
      rfl

end

/-! ## The result -/

/-- A trade at the price 1, which is written as `1`. -/
def wholePrice : String :=
  "\x7b\"stream\":\"bnbbtc@trade\",\"data\":\x7b\"e\":\"trade\",\"E\":1672515782136," ++
  "\"s\":\"BNBBTC\",\"t\":12345,\"p\":1,\"q\":\"1000.00000000\",\"T\":1672515782137," ++
  "\"m\":false,\"M\":true\x7d\x7d"

/-- The libraries on that frame. -/
def wholePriceLibs : Libs where
  parse txt :=
    if txt = wholePrice then some <| .obj [("stream", .str "bnbbtc@trade"), ("data", .obj
      [("e", .str "trade"), ("E", .num (.posInt 1672515782136)), ("s", .str "BNBBTC"),
        ("t", .num (.posInt 12345)), ("p", .num (.posInt 1)), ("q", .str "1000.00000000"),
        ("T", .num (.posInt 1672515782137)), ("m", .bool false), ("M", .bool true)])]
    else none
  parseF64 s := if s = "1000.00000000" then some 0x408f400000000000 else none
  ofU64 n := if n = 1 then 0x3ff0000000000000 else 0
  ofI64 _ := 0
  encode _ := [
    8, 248, 139, 214, 205, 214, 48, 18, 6, 66, 78, 66, 66, 84, 67, 26, 7, 66, 73, 78, 65, 78, 67,
    69, 32, 185, 96, 41, 0, 0, 0, 0, 0, 0, 240, 63, 49, 0, 0, 0, 0, 0, 64, 143, 64, 56, 249, 139,
    214, 205, 214, 48, 72, 1]

end

end Collector
