import CryptoLakehouse.Query.Proof.StreamInto

/-!
# Binding by position

`toRecordBatch`, `appendRecords` and `streamInto` all bind columns to the destination's schema by
position, and `RecordBatch.tryNew` compares types, not names. `binding_labels_iff`: data with the
columns `from` is refused, or written under the names it came with, exactly when the names are the
destination's in its order or some type differs.
-/

namespace Query

open Arrow Trades Sink Fallible

/-- Every value has the same name under both schemas. -/
def Labelled (input dest : Schema) (rows : List Row) : Prop :=
  ∀ row ∈ rows, ∀ name, dest.cell row name = input.cell row name

/-- A trade no two of whose cells are equal. -/
def distinctTrade : TradeEvent where
  eventTime := 1
  symbol := "BTCUSDT"
  exchange := "BINANCE"
  tradeId := 2
  price := 1
  quantity := 2
  tradeTime := 3
  isBuyerMaker := true
  isBestPriceMatch := false

/-- The trade's cells in the order of another schema. -/
def rowOf (dest : Schema) : Row := dest.map fun f => schema.cell distinctTrade.toRow f.name

section
variable {s d : Schema} {row : Row} {name : String} {c : Cell} {v : Value}

/-! ## Cells -/

theorem mem_zip_of_cell (h : s.cell row name = some v) : (name, some v) ∈ s.names.zip row := by
  have hl : (s.names.zip row).lookup name = some (some v) := Option.join_eq_some_iff.1 h
  obtain ⟨l₁, l₂, he, -⟩ := List.lookup_eq_some_iff.1 hl
  rw [he]
  exact List.mem_append_right _ List.mem_cons_self

theorem cell_of_mem_zip (hn : s.names.Nodup) (h : (name, c) ∈ s.names.zip row) :
    s.cell row name = c := by
  have hl : (s.names.zip row).lookup name = some c := by
    generalize s.names = names at hn h
    induction names generalizing row with
    | nil => exact absurd h List.not_mem_nil
    | cons a names ih =>
      obtain ⟨ha, hn⟩ := List.nodup_cons.1 hn
      cases row with
      | nil => exact absurd h List.not_mem_nil
      | cons b row =>
        rw [List.zip_cons_cons, List.lookup_cons]
        rcases List.mem_cons.1 h with he | h
        · cases he
          rw [beq_self_eq_true]
        · have hne : (name == a) = false := by
            rw [beq_eq_false_iff_ne]
            exact fun he => ha (he ▸ (List.of_mem_zip h).1)
          rw [hne]
          exact ih hn h
  rw [Schema.cell, hl]
  rfl

/-- A row of distinct cells tells the names apart. -/
theorem names_eq_of_labelled (hn : d.names.Nodup) (hs : s.length = row.length)
    (hd : d.length = row.length) (hrow : row.Nodup) (hsome : ∀ c ∈ row, c.isSome = true)
    (h : Labelled s d [row]) : s.names = d.names := by
  have hls : s.names.length = row.length := by rw [Schema.names, List.length_map, hs]
  have hld : d.names.length = row.length := by rw [Schema.names, List.length_map, hd]
  refine List.ext_getElem (hls.trans hld.symm) fun i hi hi' => ?_
  have hir : i < row.length := hls ▸ hi
  obtain ⟨v, hv⟩ := Option.isSome_iff_exists.1 (hsome row[i] (List.getElem_mem hir))
  have hmem : (d.names[i], row[i]) ∈ d.names.zip row := by
    rw [← List.getElem_zip (h := by rw [List.length_zip]; omega)]
    exact List.getElem_mem _
  have hcell := h row (List.mem_singleton_self row) d.names[i]
  rw [cell_of_mem_zip hn hmem, hv] at hcell
  obtain ⟨j, hj, he⟩ := List.getElem_of_mem (mem_zip_of_cell hcell.symm)
  rw [List.getElem_zip, Prod.mk.injEq] at he
  have hjr : j < row.length := by rw [List.length_zip] at hj; omega
  have hij : j = i := hrow.getElem_inj_iff.1 (he.2.trans hv.symm)
  subst hij
  exact he.1

theorem labelled_of_names (h : s.names = d.names) (rows : List Row) : Labelled s d rows :=
  fun row _ name => by rw [Schema.cell, Schema.cell, h]

/-! ## Destinations with the eleven columns -/

theorem typed_map {fields : List Field} {cell : Field → Cell}
    (h : ∀ f ∈ fields, ((cell f).all fun v => v.dataType == f.dataType) = true) :
    typed (Schema.types fields) (fields.map cell) = true := by
  induction fields with
  | nil => rfl
  | cons f fields ih =>
    obtain ⟨hf, h⟩ := List.forall_mem_cons.1 h
    rw [Schema.types, List.map_cons, List.map_cons, typed, hf, Bool.true_and]
    exact ih h

theorem nullsOk_of_some (s : Schema) (h : ∀ c ∈ row, c.isSome = true) : nullsOk s row = true := by
  rw [nullsOk, List.all_eq_true]
  intro fc hfc
  rw [h fc.2 (List.of_mem_zip hfc).2, Bool.or_true]

variable (hd : d.Perm schema)
include hd

theorem nodup_names : d.names.Nodup := by
  have h : schema.names.Nodup := by decide +kernel
  exact (hd.map Field.name).nodup_iff.2 h

theorem rowOf_perm : (rowOf d).Perm distinctTrade.toRow := by
  have h : rowOf schema = distinctTrade.toRow := by decide +kernel
  rw [← h]
  exact hd.map _

theorem nodup_rowOf : (rowOf d).Nodup := (rowOf_perm hd).nodup_iff.2 (by decide +kernel)

theorem isSome_rowOf : ∀ c ∈ rowOf d, c.isSome = true := by
  have h : ∀ c ∈ distinctTrade.toRow, c.isSome = true := by decide +kernel
  exact fun c hc => h c ((rowOf_perm hd).mem_iff.1 hc)

theorem typed_rowOf : typed d.types (rowOf d) = true := by
  have h : ∀ f ∈ schema, ((schema.cell distinctTrade.toRow f.name).all fun v =>
      v.dataType == f.dataType) = true := by decide +kernel
  exact typed_map fun f hf => h f (hd.mem_iff.1 hf)

/-- A batch of any schema of the destination's types that tells the names apart. -/
theorem exists_batch (ht : s.types = d.types) :
    ∃ batch b : RecordBatch, batch.schema = s ∧ batch.rows = [rowOf d] ∧
      RecordBatch.tryNew d batch.columns = .ok b := by
  have hnull : ∀ s' : Schema, ∀ r ∈ [rowOf d], nullsOk s' r = true := fun s' r hr => by
    rw [List.mem_singleton.1 hr]
    exact nullsOk_of_some s' (isSome_rowOf hd)
  have htyped : ∀ r ∈ [rowOf d], typed s.types r = true := fun r hr => by
    rw [List.mem_singleton.1 hr, ht]
    exact typed_rowOf hd
  let batch : RecordBatch := ⟨s, [rowOf d], htyped, hnull s⟩
  obtain ⟨b, hb⟩ := RecordBatch.tryNew_isOk.2
    (⟨ht, hnull d⟩ : batch.columns.types = d.types ∧ ∀ r ∈ batch.columns.rows, nullsOk d r = true)
  exact ⟨batch, b, rfl, rfl, hb⟩

theorem names_eq_of_rowOf (ht : s.types = d.types) (h : Labelled s d [rowOf d]) :
    s.names = d.names := by
  have hlen : d.length = (rowOf d).length := by rw [rowOf, List.length_map]
  have hs : s.length = d.length := by
    have := congrArg List.length ht
    rwa [Schema.types, Schema.types, List.length_map, List.length_map] at this
  exact names_eq_of_labelled (nodup_names hd) (hs.trans hlen) hlen (nodup_rowOf hd)
    (isSome_rowOf hd) h

end

/-! ## The three sites -/

section
variable {input dest : Schema} {w : World} {ops : CommitOps} {batch : RecordBatch}

theorem toRecordBatch_eq_ok {rows : List TradeEvent} {b : RecordBatch} :
    toRecordBatch dest rows = .ok b ↔
      RecordBatch.tryNew dest (eventColumns rows) = .ok b := Except.withContext_eq_ok

theorem toRecordBatch_labels_iff (hd : dest.Perm schema) :
    (∀ rows b, toRecordBatch dest rows = .ok b →
      b.rows = rows.map TradeEvent.toRow ∧ Labelled schema b.schema b.rows) ↔
    schema.names = dest.names ∨ schema.types ≠ dest.types := by
  refine ⟨fun h => ?_, fun h rows b hb => ?_⟩
  · by_contra hn
    obtain ⟨hnames, htypes⟩ := not_or.1 hn
    have ht := not_not.1 htypes
    have hnull : ∀ r ∈ (eventColumns [distinctTrade]).rows, nullsOk dest r = true := fun r hr => by
      rw [List.mem_singleton.1 hr]
      exact nullsOk_toRow dest distinctTrade
    obtain ⟨b, hb⟩ := RecordBatch.tryNew_isOk.2 ⟨ht, hnull⟩
    obtain ⟨hrows, hl⟩ := h _ b (toRecordBatch_eq_ok.2 hb)
    obtain ⟨-, -, hs, -⟩ := RecordBatch.tryNew_eq_ok.1 hb
    rw [hrows, hs] at hl
    exact hnames (names_eq_of_labelled (nodup_names hd) rfl hd.length_eq (by decide +kernel)
      (by decide +kernel) hl)
  · obtain ⟨ht, -, hs, hr⟩ := RecordBatch.tryNew_eq_ok.1 (toRecordBatch_eq_ok.1 hb)
    refine ⟨hr, ?_⟩
    rw [hs]
    exact labelled_of_names (h.resolve_right fun hne => hne ht) _

theorem appendRecords_labels_iff (hd : dest.Perm schema) (hw : Opened dest w) :
    (∀ ops batch, batch.schema = input → succeeded (appendRecords ops batch w) = true →
      Grown w.lake (final (appendRecords ops batch w)).lake (boundRows dest batch) ∧
        Labelled input dest batch.rows) ↔
    input.names = dest.names ∨ input.types ≠ dest.types := by
  refine ⟨fun h => ?_, fun h ops batch hs hok => ?_⟩
  · by_contra hn
    obtain ⟨hnames, htypes⟩ := not_or.1 hn
    have ht := not_not.1 htypes
    obtain ⟨batch, b, hs, hr, hb⟩ := exists_batch hd ht
    obtain ⟨-, hl⟩ := h .allOk batch hs (appendRecords_ok hw hb rfl rfl)
    rw [hr] at hl
    exact hnames (names_eq_of_rowOf hd ht hl)
  · refine ⟨((appendRecords_spec hw ops batch).ok hok).grown, ?_⟩
    by_cases hne : batch.numRows = 0
    · rw [List.length_eq_zero_iff.1 hne]
      exact fun r hr => absurd hr List.not_mem_nil
    · obtain ⟨b, hb⟩ := appendRecords_bound hw hne hok
      have ht := (RecordBatch.tryNew_eq_ok.1 hb).1
      rw [RecordBatch.columns_types, hs] at ht
      exact labelled_of_names (h.resolve_right fun hne => hne ht) _

theorem streamInto_labels_iff (hd : dest.Perm schema) (hw : Opened dest w) :
    (∀ ops (batches : List RecordBatch) chunkRows, (∀ b ∈ batches, b.schema = input) →
      succeeded (streamInto ops (batches.map .ok) chunkRows w) = true →
      Grown w.lake (final (streamInto ops (batches.map .ok) chunkRows w)).lake
          (batches.flatMap (boundRows dest)) ∧
        ∀ b ∈ batches, Labelled input dest b.rows) ↔
    input.names = dest.names ∨ input.types ≠ dest.types := by
  refine ⟨fun h => ?_, fun h ops batches chunkRows hs hok => ?_⟩
  · by_contra hn
    obtain ⟨hnames, htypes⟩ := not_or.1 hn
    have ht := not_not.1 htypes
    obtain ⟨batch, b, hs, hr, hb⟩ := exists_batch hd ht
    have hbinds : Binds dest [.ok batch] := fun item hi => ⟨batch, b, List.mem_singleton.1 hi, hb⟩
    obtain ⟨n, w', hok⟩ := streamInto_ok hw StreamOps.ok_allOk hbinds 1
    obtain ⟨-, hl⟩ := h .allOk [batch] 1 (fun b hb => List.mem_singleton.1 hb ▸ hs)
      (by rw [List.map_singleton, hok]; rfl)
    have hl := hl batch (List.mem_singleton_self batch)
    rw [hr] at hl
    exact hnames (names_eq_of_rowOf hd ht hl)
  · have hspec := streamInto_spec hw ops (batches.map .ok) chunkRows
    obtain ⟨n, w', hr⟩ := succeeded_iff.1 hok
    obtain ⟨hb, hg, -⟩ := hspec.ok n w' hr
    rw [hr]
    refine ⟨accepted_of_binds hb ▸ hg, fun batch hm => ?_⟩
    obtain ⟨batch', b, he, hb⟩ := hb _ (List.mem_map_of_mem hm)
    cases he
    have ht := (RecordBatch.tryNew_eq_ok.1 hb).1
    rw [RecordBatch.columns_types, hs _ hm] at ht
    exact labelled_of_names (h.resolve_right fun hne => hne ht) _

end

/-- **When binding keeps the labels**, for a destination of the eleven columns in any order: what a
site accepts is written under the names it came with exactly when the names are the destination's in
its order, or some type differs and everything is refused. -/
theorem binding_labels_iff (input : Schema) {dest : Schema} (hd : dest.Perm schema) {w : World}
    (hw : Opened dest w) :
    ((∀ rows b, toRecordBatch dest rows = .ok b →
        b.rows = rows.map TradeEvent.toRow ∧ Labelled schema b.schema b.rows) ↔
      schema.names = dest.names ∨ schema.types ≠ dest.types) ∧
    ((∀ ops batch, batch.schema = input → succeeded (appendRecords ops batch w) = true →
        Grown w.lake (final (appendRecords ops batch w)).lake (boundRows dest batch) ∧
          Labelled input dest batch.rows) ↔
      input.names = dest.names ∨ input.types ≠ dest.types) ∧
    ((∀ ops (batches : List RecordBatch) chunkRows, (∀ b ∈ batches, b.schema = input) →
        succeeded (streamInto ops (batches.map .ok) chunkRows w) = true →
        Grown w.lake (final (streamInto ops (batches.map .ok) chunkRows w)).lake
            (batches.flatMap (boundRows dest)) ∧
          ∀ b ∈ batches, Labelled input dest b.rows) ↔
      input.names = dest.names ∨ input.types ≠ dest.types) :=
  ⟨toRecordBatch_labels_iff hd, appendRecords_labels_iff hd hw, streamInto_labels_iff hd hw⟩

/-- The contract with `symbol` and `exchange` in each other's place. -/
def swappedSchema : Schema :=
  schema.map fun f =>
    if f.name = "symbol" then { f with name := "exchange" }
    else if f.name = "exchange" then { f with name := "symbol" }
    else f

/-- One trade under the swapped names. -/
def swappedBatch : RecordBatch where
  schema := swappedSchema
  rows := [(btcTrade 1 1000).toRow]
  typed := by decide +kernel
  nulls := by decide +kernel

/-- A batch in the table's own order. -/
theorem binding_labels_iff_own : Labelled schema schema [(btcTrade 1 1000).toRow] := by
  have hw : Opened schema (connect "trades.trades" ⟨5⟩ .created) := opened_connect _ _ rfl
  obtain ⟨b, hb⟩ := RecordBatch.tryNew_isOk.2 (⟨rfl, by decide +kernel⟩ :
    (eventColumns [btcTrade 1 1000]).types = schema.types ∧
      ∀ r ∈ (eventColumns [btcTrade 1 1000]).rows, nullsOk schema r = true)
  obtain ⟨-, -, hs, hr⟩ := RecordBatch.tryNew_eq_ok.1 hb
  have h := ((binding_labels_iff schema (.refl _) hw).2.1.2 (.inl rfl)) .allOk b hs
    (appendRecords_ok hw (RecordBatch.tryNew_eq_ok.2 ⟨by rw [← hs]; rfl, hs ▸ b.nulls, hs, rfl⟩)
      rfl rfl)
  rw [hr] at h
  exact h.2

/-- All three sites accept `symbol` and `exchange` in each other's place: a table in the swapped order
gets the symbol as the exchange, and swapped input is stored with its symbol as the exchange. -/
theorem swapped_accepted :
    swappedSchema.Perm schema ∧
    (toRecordBatch swappedSchema [btcTrade 1 1000]).toOption.map
        (fun b => (trades b).map (·.exchange)) = some [some "BTCUSDT"] ∧
    (trades swappedBatch).map (·.symbol) = [some "BINANCE"] ∧
    succeeded (appendRecords .allOk swappedBatch (connect "trades.trades" ⟨5⟩ .created)) = true ∧
    (final (appendRecords .allOk swappedBatch
      (connect "trades.trades" ⟨5⟩ .created))).lake.rows.map (·.exchange) = [some "BINANCE"] ∧
    succeeded (streamInto .allOk [.ok swappedBatch] 1
      (connect "trades.trades" ⟨5⟩ .created)) = true ∧
    (final (streamInto .allOk [.ok swappedBatch] 1
      (connect "trades.trades" ⟨5⟩ .created))).lake.rows.map (·.exchange) = [some "BINANCE"] := by
  decide +kernel

end Query
