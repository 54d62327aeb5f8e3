import CryptoLakehouse.Batcher.Proof.OncePerKey
import CryptoLakehouse.Batcher.Proof.Restart
import CryptoLakehouse.Collector.Proof.Message
import CryptoLakehouse.Lakehouse.System

/-!
# From the exchange to the table

A run of the lakehouse is, for the batcher, a run on the stream as it is in the end (`run_batcher`):
the stream only grows, and what was delivered stays as it was. So what holds of the batcher on any
stream holds here, of a stream whose payloads are the encodings of the trades that were read.

* `end_to_end` — nothing is lost once it is acked, and nothing is in the table that no frame said.
* `one_row_per_trade` — with dedup on and nobody else writing, each acked trade is there once.
* `stream_reaches_table` — every trade of the stream can get to the table after a restart, if the
  writer can file them all.
-/

namespace Lakehouse

open Trades Sink Collector Fallible Batcher

/-- The trade that a collector reads from a frame. -/
def Reads (libs : Libs) (txt : String) (e : TradeEvent) : Prop :=
  ∃ payload, libs.accepted txt = some payload ∧ payload.into = e

/-- Every payload of the stream is the encoding of a trade that was read. -/
def Published (libs : Libs) (s : State) : Prop :=
  ∀ payload ∈ s.stream, ∃ txt ∈ s.frames, ∃ e, Reads libs txt e ∧ libs.encode e = payload

/-- The batcher's part of a run. -/
def batcherActions (as : List Action) : List Source.Action :=
  as.filterMap fun
    | .frame _ _ _ => none
    | .batcher a => some a

/-- The rows that other writers have committed along a run. -/
def foreignRows (as : List Action) : Set TradeRow := Source.foreignRows (batcherActions as)

section
variable {libs : Libs} {cfg : Source.Config} {decode : List UInt8 → Option TradeEvent}
  {s s' : State} {a : Action} {as : List Action}

/-! ## The collector -/

/-- A frame is published, or the collector panics before that. -/
theorem handleMessage_log (txt : String) (replies : Nat → Reply) :
    final ((binanceExchange libs).handleMessage libs replies txt []) =
      (libs.published txt).toList := by
  have hx : (libs.parse txt).bind (binanceExchange libs).deserialize = libs.accepted txt := rfl
  unfold Exchange.handleMessage Libs.published
  rw [hx]
  cases libs.accepted txt with
  | none => rfl
  | some payload =>
    dsimp only
    rw [bind_of_ok (publishTrade_apply _ _)]
    cases replies ([] : List Publish).length <;> rfl

/-- What a frame adds to the stream is the encoding of the trade that was read from it. -/
theorem reads_of_published {txt : String} {publish : Publish}
    (h : publish ∈ (libs.published txt).toList) :
    ∃ e, Reads libs txt e ∧ libs.encode e = publish.eventBytes := by
  obtain ⟨payload, hacc, rfl⟩ := Option.map_eq_some_iff.1 (Option.mem_toList.1 h)
  exact ⟨_, ⟨payload, hacc, rfl⟩, rfl⟩

theorem published_step (h : Published libs s) (hs : step libs cfg decode s a = some s') :
    Published libs s' := by
  cases a with
  | frame txt reply reached =>
    cases hs
    intro payload hp
    rcases List.mem_append.1 hp with hp | hp
    · obtain ⟨t, ht, hx⟩ := h payload hp
      exact ⟨t, List.mem_append_left _ ht, hx⟩
    · split at hp
      · obtain ⟨publish, hm, rfl⟩ := List.mem_map.1 hp
        rw [handleMessage_log] at hm
        exact ⟨txt, List.mem_append_right _ (List.mem_singleton_self _), reads_of_published hm⟩
      · cases hp
  | batcher a =>
    obtain ⟨b, -, rfl⟩ := Option.map_eq_some_iff.1 hs
    exact h

/-! ## The batcher -/

/-- A larger stream enables the same steps. -/
theorem step_mono {stream stream' : Nat → Option (List UInt8)} {b b' : Source.State}
    {a : Source.Action} (hm : ∀ seq payload, stream seq = some payload → stream' seq = some payload)
    (h : Source.step cfg decode stream b a = some b') :
    Source.step cfg decode stream' b a = some b' := by
  cases a with
  | arrive seq =>
    simp only [Source.step, Source.State.arrive] at h ⊢
    split at h
    · split at h
      · rename_i hen
        obtain ⟨payload, hp, rfl⟩ := Option.map_eq_some_iff.1 h
        rw [if_pos hen, hm seq payload hp]
        rfl
      · cases h
    · cases h
  | _ => exact h

theorem stream_grows (hs : step libs cfg decode s a = some s') : s.stream <+: s'.stream := by
  cases a with
  | frame txt reply reached =>
    cases hs
    exact List.prefix_append _ _
  | batcher a =>
    obtain ⟨b, -, rfl⟩ := Option.map_eq_some_iff.1 hs
    exact List.prefix_refl _

theorem payload_mono (h : s.stream <+: s'.stream) (seq : Nat) (payload : List UInt8)
    (hp : s.payload seq = some payload) : s'.payload seq = some payload := by
  obtain ⟨rest, hr⟩ := h
  obtain ⟨hlt, rfl⟩ := List.getElem?_eq_some_iff.1 hp
  rw [State.payload, ← hr, List.getElem?_append_left hlt, List.getElem?_eq_getElem hlt]

theorem stream_grows_run (h : Machine.run (step libs cfg decode) s as = some s') :
    s.stream <+: s'.stream := by
  induction as generalizing s with
  | nil =>
    cases h
    exact List.prefix_refl _
  | cons a as ih =>
    obtain ⟨m, hm, hr⟩ := Machine.run_cons.1 h
    exact (stream_grows hm).trans (ih hr)

/-- For the batcher, a run is a run on the stream as it is in the end. -/
theorem run_batcher (h : Machine.run (step libs cfg decode) s as = some s') :
    Machine.run (Source.step cfg decode s'.payload) s.batcher (batcherActions as) =
      some s'.batcher := by
  induction as generalizing s with
  | nil =>
    cases h
    rfl
  | cons a as ih =>
    obtain ⟨m, hm, hr⟩ := Machine.run_cons.1 h
    have hpre := (stream_grows hm).trans (stream_grows_run hr)
    cases a with
    | frame txt reply reached =>
      cases hm
      exact ih (s := s.frame libs txt reply reached) hr
    | batcher a =>
      obtain ⟨b, hb, rfl⟩ := Option.map_eq_some_iff.1 hm
      exact Machine.run_cons.2 ⟨b, step_mono (payload_mono hpre) hb, ih hr⟩

/-- A write of the batcher is one of trades that the writer can file. -/
def State.Writes (s : State) (a : Action) : Prop := ∀ b, a = .batcher b → s.batcher.Writes b

/-- So is each of a stretch of the batcher's steps, if it is for the batcher on this stream. -/
theorem writes_of_batcher {bs : List Source.Action}
    (h : Machine.EachStep (Source.step cfg decode s.payload) Source.State.Writes s.batcher bs) :
    Machine.EachStep (step libs cfg decode) State.Writes s (bs.map .batcher) := by
  induction bs generalizing s with
  | nil => trivial
  | cons a bs ih =>
    refine ⟨fun b hb => ?_, fun m hm => ?_⟩
    · cases hb
      exact h.1
    · obtain ⟨b, hb, rfl⟩ := Option.map_eq_some_iff.1 hm
      exact ih (s := { s with batcher := b }) (h.2 b hb)

/-- Steps of the batcher alone are steps of the lakehouse. -/
theorem run_of_batcher {bs : List Source.Action} {b : Source.State}
    (h : Machine.run (Source.step cfg decode s.payload) s.batcher bs = some b) :
    Machine.run (step libs cfg decode) s (bs.map .batcher) = some { s with batcher := b } := by
  induction bs generalizing s with
  | nil =>
    cases h
    rfl
  | cons a bs ih =>
    obtain ⟨m, hm, hr⟩ := Machine.run_cons.1 h
    rw [List.map_cons, Machine.run_cons]
    refine ⟨{ s with batcher := m }, by simp only [step, hm, Option.map_some], ?_⟩
    exact ih (s := { s with batcher := m }) hr

end

/-! ## Every run -/

section
variable {libs : Libs} {cfg : Source.Config} {decode : List UInt8 → Option TradeEvent}
  {lake : Lake} {s : State} {as : List Action}

theorem published_run (h : Machine.run (step libs cfg decode) (.start cfg lake) as = some s) :
    Published libs s :=
  Machine.run_inv (fun _ _ _ h hs => published_step h hs)
    (fun _ hp => absurd hp List.not_mem_nil) h

/-- The event of a message is what the encoding of a trade that was read decodes to. -/
theorem reads_of_payload (hp : Published libs s) {seq : Nat} {payload : List UInt8}
    (h : s.payload seq = some payload) :
    ∃ txt ∈ s.frames, ∃ e, Reads libs txt e ∧ libs.encode e = payload :=
  hp payload (List.mem_of_getElem? h)

/-- **End to end.** After any run: an acked message is the encoding of a trade that was read from a
frame, and if that decodes, the table holds its key; and every row of the table was there at first,
or came with another writer's commit, or is what the encoding of such a trade decodes to. -/
theorem end_to_end (hl : lake.table.schema = Trades.schema)
    (h : Machine.run (step libs cfg decode) (.start cfg lake) as = some s) :
    (∀ seq ∈ s.batcher.loop.acked, ∃ txt ∈ s.frames, ∃ e, Reads libs txt e ∧
      s.payload seq = some (libs.encode e) ∧ ∀ e', decode (libs.encode e) = some e' →
        ∃ r ∈ s.batcher.loop.world.lake.rows, r.key = some e'.key) ∧
    ∀ r ∈ s.batcher.loop.world.lake.rows, r ∈ lake.rows ∨ r ∈ foreignRows as ∨
      ∃ txt ∈ s.frames, ∃ e e', Reads libs txt e ∧ decode (libs.encode e) = some e' ∧
        r = .ofEvent e' := by
  have hpub := published_run h
  have hrun := run_batcher h
  have hinv := Source.inv_run hl hrun
  refine ⟨fun seq hseq => ?_, fun r hr => ?_⟩
  · obtain ⟨m, hm, rfl⟩ := hinv.acked seq hseq
    have hpay := hinv.handed.payload m
      (List.mem_append_left _ (List.mem_append_right _ hm))
    obtain ⟨txt, ht, e, he, henc⟩ := reads_of_payload hpub hpay
    refine ⟨txt, ht, e, he, henc ▸ hpay, fun e' he' => ?_⟩
    exact Source.acked_held hl hrun m.seq hseq (.ofEvent e')
      (by simp [Source.row, hpay, ← henc, he'])
  · rcases Source.rows_sourced hl hrun r hr with h | h | ⟨seq, hseq⟩
    · exact .inl h
    · exact .inr (.inl h)
    · obtain ⟨e', he', rfl⟩ := Option.map_eq_some_iff.1 hseq
      obtain ⟨payload, hpay, hdec⟩ := Option.bind_eq_some_iff.1 he'
      obtain ⟨txt, ht, e, he, rfl⟩ := reads_of_payload hpub hpay
      exact .inr (.inr ⟨txt, ht, e, e', he, hdec, rfl⟩)

/-- **One row per trade.** With dedup on, nobody else writing, one trade per key among the frames
that were read, encodings that decode to what was encoded, and a table at first of distinct keys
that agrees with these trades: after any run the table's keys are distinct, and each acked message is
a trade of a frame that has exactly one row, its own. -/
theorem one_row_per_trade (hl : lake.table.schema = Trades.schema) (hd : cfg.policy.dedup = true)
    (h : Machine.run (step libs cfg decode) (.start cfg lake) as = some s)
    (hcodec : ∀ txt ∈ s.frames, ∀ e, Reads libs txt e → decode (libs.encode e) = some e)
    (hone : ∀ txt ∈ s.frames, ∀ txt' ∈ s.frames, ∀ e e', Reads libs txt e → Reads libs txt' e' →
      e.key = e'.key → e = e')
    (hu : Keyed.Uniq TradeRow.key lake.rows)
    (hagree : ∀ r ∈ lake.rows, ∀ txt ∈ s.frames, ∀ e, Reads libs txt e → r.key = some e.key →
      r = TradeRow.ofEvent e)
    (hown : ∀ files, .batcher (.loop (.foreign files)) ∉ as) :
    Keyed.Uniq TradeRow.key s.batcher.loop.world.lake.rows ∧
    ∀ seq ∈ s.batcher.loop.acked, ∃ txt ∈ s.frames, ∃ e, Reads libs txt e ∧
      s.payload seq = some (libs.encode e) ∧
      TradeRow.ofEvent e ∈ s.batcher.loop.world.lake.rows ∧
      (Keyed.keys TradeRow.key s.batcher.loop.world.lake.rows).count e.key = 1 := by
  have hpub := published_run h
  have hrun := run_batcher h
  have hev : ∀ e, Source.EventOf decode s.payload e → ∃ txt ∈ s.frames, Reads libs txt e := by
    rintro e ⟨seq, payload, hpay, hdec⟩
    obtain ⟨txt, ht, e₀, he, rfl⟩ := reads_of_payload hpub hpay
    rw [hcodec txt ht e₀ he, Option.some.injEq] at hdec
    exact ⟨txt, ht, hdec ▸ he⟩
  have hOwn : ∀ a ∈ batcherActions as, Source.Own a := by
    intro a ha files he
    obtain ⟨b, hb, hba⟩ := List.mem_filterMap.1 ha
    cases b with
    | frame _ _ _ => cases hba
    | batcher b =>
      cases hba
      exact hown files (he ▸ hb)
  have honce := Source.once_run hl hd
    (fun e e' he he' hk => by
      obtain ⟨txt, ht, hr⟩ := hev e he
      obtain ⟨txt', ht', hr'⟩ := hev e' he'
      exact hone txt ht txt' ht' e e' hr hr' hk)
    hu (fun r hr e he hk => by
      obtain ⟨txt, ht, hrd⟩ := hev e he
      exact hagree r hr txt ht e hrd hk) hOwn hrun
  have hinv := Source.inv_run hl hrun
  refine ⟨honce.uniq, fun seq hseq => ?_⟩
  obtain ⟨m, hm, rfl⟩ := hinv.acked seq hseq
  have hpay := hinv.handed.payload m (List.mem_append_left _ (List.mem_append_right _ hm))
  obtain ⟨txt, ht, e, he, henc⟩ := reads_of_payload hpub hpay
  have hdec : decode m.payload = some e := henc ▸ hcodec txt ht e he
  exact ⟨txt, ht, e, he, henc ▸ hpay, Source.own_row hl honce hrun hseq hpay hdec⟩

/-- **The stream reaches the table**: when the writer can file the trades of the stream, from every
state of every run, a restart of the batcher and some steps of it without further faults, each write
one that the writer gets past, lead to a state in which the table holds the key of every trade of the
stream. -/
theorem stream_reaches_table (hl : lake.table.schema = Trades.schema) (hcap : 0 < cfg.maxAckPending)
    (h : Machine.run (step libs cfg decode) (.start cfg lake) as = some s)
    (hw : ∀ payload ∈ s.stream, ∀ e, decode payload = some e → e.Writable) :
    ∃ bs s', (∀ a ∈ bs, a.Faultless) ∧
      Machine.EachStep (step libs cfg decode) State.Writes s ((.crash :: bs).map .batcher) ∧
      Machine.run (step libs cfg decode) s ((.crash :: bs).map .batcher) = some s' ∧
      s'.stream = s.stream ∧ ∀ payload ∈ s.stream, ∀ e, decode payload = some e →
        ∃ r ∈ s'.batcher.loop.world.lake.rows, r.key = some e.key := by
  have hrun := run_batcher h
  have hin : ∀ seq ∈ List.range s.stream.length, s.payload seq ≠ none := fun seq hseq => by
    rw [State.payload, List.getElem?_eq_getElem (List.mem_range.1 hseq)]
    nofun
  obtain ⟨bs, b, hf, hr, hall⟩ := Source.recover_run hl hcap hrun _ hin
  have hwr := Source.writes_run hl (fun e ⟨_, payload, hp, hd⟩ =>
    hw payload (List.mem_of_getElem? hp) e hd) hrun (.crash :: bs)
  refine ⟨bs, { s with batcher := b }, hf, writes_of_batcher hwr, run_of_batcher hr, rfl,
    fun payload hp e he => ?_⟩
  obtain ⟨seq, hlt, rfl⟩ := List.getElem_of_mem hp
  refine Source.acked_held hl (Machine.run_append.2 ⟨_, hrun, hr⟩) seq
    (hall (List.mem_range.2 hlt)) (.ofEvent e) ?_
  simp [Source.row, State.payload, List.getElem?_eq_getElem hlt, he]

end

/-! ### One trade -/

/-- A trade at the price 1.0. -/
def bnbFrame : String :=
  "\x7b\"stream\":\"bnbbtc@trade\",\"data\":\x7b\"e\":\"trade\",\"E\":1672515782136," ++
  "\"s\":\"BNBBTC\",\"t\":12345,\"p\":\"1.0\",\"q\":\"1000.00000000\",\"T\":1672515782137," ++
  "\"m\":false,\"M\":true\x7d\x7d"

def bnbTrade : TradeEvent where
  eventTime := 1672515782136
  symbol := "BNBBTC"
  exchange := "BINANCE"
  tradeId := 12345
  price := 0x3ff0000000000000
  quantity := 0x408f400000000000
  tradeTime := 1672515782137
  isBuyerMaker := false
  isBestPriceMatch := true

/-- The libraries on that frame, and on that trade. -/
def bnbLibs : Libs where
  parse txt :=
    if txt = bnbFrame then some <| .obj [("stream", .str "bnbbtc@trade"), ("data", .obj
      [("e", .str "trade"), ("E", .num (.posInt 1672515782136)), ("s", .str "BNBBTC"),
        ("t", .num (.posInt 12345)), ("p", .str "1.0"), ("q", .str "1000.00000000"),
        ("T", .num (.posInt 1672515782137)), ("m", .bool false), ("M", .bool true)])]
    else none
  parseF64 s :=
    if s = "1.0" then some 0x3ff0000000000000
    else if s = "1000.00000000" then some 0x408f400000000000
    else none
  ofU64 _ := 0
  ofI64 _ := 0
  encode := wholePriceLibs.encode

def bnbDecode (payload : List UInt8) : Option TradeEvent :=
  if payload = bnbLibs.encode bnbTrade then some bnbTrade else none

/-- The frame is read twice, its first message is delivered twice, and the ack of one is lost. -/
def readTwice : List Action :=
  [.frame bnbFrame (.ok ()) true, .batcher (.fetch (.ok ())), .batcher (.arrive 0), .batcher .next,
    .batcher .send, .frame bnbFrame (.error "timed out") true, .batcher (.loop (.recv 0 0 0)),
    .batcher (.loop (.due 5)), .batcher (.loop (.write .allOk)),
    .batcher (.loop (.ack 0 (.error "timed out"))), .batcher (.arrive 0), .batcher .next,
    .batcher .send, .batcher .close, .batcher .next, .batcher (.fetch (.ok ())),
    .batcher (.arrive 1), .batcher .next, .batcher .send, .batcher (.loop (.recv 6 6 6)),
    .batcher (.loop (.recv 7 7 7)), .batcher (.loop (.due 11)), .batcher (.loop (.write .allOk)),
    .batcher (.loop (.ack 1 (.ok ()))), .batcher (.loop (.ack 0 (.ok ())))]

theorem run_readTwice : ∃ s, Machine.run (step bnbLibs Source.smallFetches bnbDecode)
      (.start Source.smallFetches .created) readTwice = some s ∧
    s.frames = [bnbFrame, bnbFrame] ∧ s.batcher.loop.acked = [1, 0] := by
  have hx : (Machine.run (step bnbLibs Source.smallFetches bnbDecode)
      (.start Source.smallFetches .created) readTwice).map
        (fun s => (s.frames, s.batcher.loop.acked)) = some ([bnbFrame, bnbFrame], [1, 0]) := by
    decide +kernel
  obtain ⟨s, hs, heq⟩ := Option.map_eq_some_iff.1 hx
  obtain ⟨hf, ha⟩ := Prod.mk.inj heq
  exact ⟨s, hs, hf, ha⟩

theorem end_to_end_bnb : ∃ s, Machine.run (step bnbLibs Source.smallFetches bnbDecode)
      (.start Source.smallFetches .created) readTwice = some s ∧ s.batcher.loop.acked = [1, 0] ∧
    (∀ seq ∈ s.batcher.loop.acked, ∃ txt ∈ s.frames, ∃ e, Reads bnbLibs txt e ∧
      s.payload seq = some (bnbLibs.encode e) ∧ ∀ e', bnbDecode (bnbLibs.encode e) = some e' →
        ∃ r ∈ s.batcher.loop.world.lake.rows, r.key = some e'.key) ∧
    ∀ r ∈ s.batcher.loop.world.lake.rows, r ∈ Lake.created.rows ∨ r ∈ foreignRows readTwice ∨
      ∃ txt ∈ s.frames, ∃ e e', Reads bnbLibs txt e ∧ bnbDecode (bnbLibs.encode e) = some e' ∧
        r = .ofEvent e' := by
  obtain ⟨s, hs, -, ha⟩ := run_readTwice
  exact ⟨s, hs, ha, end_to_end rfl hs⟩

theorem reads_bnb {e : TradeEvent} (h : Reads bnbLibs bnbFrame e) : e = bnbTrade := by
  obtain ⟨payload, hacc, rfl⟩ := h
  have hx : (bnbLibs.accepted bnbFrame).map (·.into) = some bnbTrade := by decide +kernel
  rw [hacc] at hx
  exact Option.some.inj hx

theorem one_row_per_trade_bnb : ∃ s, Machine.run (step bnbLibs Source.smallFetches bnbDecode)
      (.start Source.smallFetches .created) readTwice = some s ∧ s.batcher.loop.acked = [1, 0] ∧
    ∀ seq ∈ s.batcher.loop.acked, ∃ txt ∈ s.frames, ∃ e, Reads bnbLibs txt e ∧
      s.payload seq = some (bnbLibs.encode e) ∧
      TradeRow.ofEvent e ∈ s.batcher.loop.world.lake.rows ∧
      (Keyed.keys TradeRow.key s.batcher.loop.world.lake.rows).count e.key = 1 := by
  obtain ⟨s, hs, hf, ha⟩ := run_readTwice
  have hread : ∀ txt ∈ s.frames, ∀ e, Reads bnbLibs txt e → e = bnbTrade := fun txt ht e he => by
    rw [hf] at ht
    have : txt = bnbFrame := by simpa using ht
    exact reads_bnb (this ▸ he)
  refine ⟨s, hs, ha, (one_row_per_trade rfl rfl hs (fun txt ht e he => ?_)
    (fun txt ht txt' ht' e e' he he' _ => ?_) Keyed.uniq_nil
    (fun _ hr => absurd hr List.not_mem_nil) ?_).2⟩
  · rw [hread txt ht e he]
    exact if_pos rfl
  · rw [hread txt ht e he, hread txt' ht' e' he']
  · intro files
    simp [readTwice]

theorem stream_reaches_table_bnb : ∃ s, Machine.run (step bnbLibs Source.smallFetches bnbDecode)
      (.start Source.smallFetches .created) (readTwice.take 6) = some s ∧ s.stream.length = 2 ∧
    ∃ bs s', (∀ a ∈ bs, a.Faultless) ∧
      Machine.EachStep (step bnbLibs Source.smallFetches bnbDecode) State.Writes s
        ((.crash :: bs).map .batcher) ∧
      Machine.run (step bnbLibs Source.smallFetches bnbDecode) s ((.crash :: bs).map .batcher) =
        some s' ∧ s'.stream = s.stream ∧
      ∀ payload ∈ s.stream, ∀ e, bnbDecode payload = some e →
        ∃ r ∈ s'.batcher.loop.world.lake.rows, r.key = some e.key := by
  have hx : (Machine.run (step bnbLibs Source.smallFetches bnbDecode)
      (.start Source.smallFetches .created) (readTwice.take 6)).map (·.stream.length) = some 2 := by
    decide +kernel
  obtain ⟨s, hs, hlen⟩ := Option.map_eq_some_iff.1 hx
  have hw : ∀ payload ∈ s.stream, ∀ e, bnbDecode payload = some e → e.Writable := by
    intro payload _ e hd
    unfold bnbDecode at hd
    split at hd
    · cases hd
      decide
    · cases hd
  exact ⟨s, hs, hlen, stream_reaches_table rfl (by decide) hs hw⟩

end Lakehouse
