import CryptoLakehouse.Query.Proof.Backfill
import CryptoLakehouse.Writers.Proof.Ready

/-!
# One row per key with two writers

Each writer checks its rows against one state of the table and appends them to a later one; neither
the conflict of a `fast_append` nor the reload after it checks them again.
`one_row_per_key_iff`: along every run the table's keys stay distinct exactly when no commit that
takes effect brings a key that the other writer has committed since the check.
-/

namespace Writers

open Arrow Trades Sink Query Fallible

/-- The invariant of both writers. -/
structure Inv (tsOf : Key → Int64) (s : State) : Prop where
  agrees : Agrees tsOf s.lake.rows
  batcher : Ready tsOf s.lake s.batcher []
  backfill : ∀ b, s.backfill = some b → Ready tsOf s.lake b.writer (b.chunks.flatMap trades) ∧
    (∀ c ∈ b.chunks, c.schema = Trades.schema) ∧
    b.writer.sink.fileNameGen.uuid ≠ s.batcher.sink.fileNameGen.uuid

/-- Micro-batches of distinct keys, sources and margins: every event and every source row has the
`trade_ts` of its key, and margins are not negative. -/
def Admissible (tsOf : Key → Int64) : Action → Prop
  | .probe _ rows => (rows.map TradeEvent.key).Nodup ∧ ∀ e ∈ rows, e.tradeTs = tsOf e.key
  | .start cmd => 0 ≤ cmd.marginDays ∧
    ∀ r ∈ cmd.source, ∀ k, r.key = some k → ∀ t, r.tradeTs = some t → t = tsOf k
  | _ => True

/-- A commit that takes effect brings no key that the other writer has committed since the rows were
checked. -/
def NoClash (s : State) : Action → Prop
  | .commit reply _ => ∀ p ∈ s.batcher.pending, p.Clear s.lake s.batcher.since reply
  | .commitChunk reply _ => ∀ b ∈ s.backfill, ∀ p ∈ b.writer.pending,
    p.Clear s.lake b.writer.since reply
  | _ => True

instance decidableNoClash (s : State) : (a : Action) → Decidable (NoClash s a)
  | .commit reply _ =>
    inferInstanceAs (Decidable (∀ p ∈ s.batcher.pending, p.Clear s.lake s.batcher.since reply))
  | .commitChunk reply _ => inferInstanceAs (Decidable (∀ b ∈ s.backfill,
      ∀ p ∈ b.writer.pending, p.Clear s.lake b.writer.since reply))
  | .probe _ _ => isTrue trivial
  | .restart _ _ => isTrue trivial
  | .start _ => isTrue trivial
  | .writeChunk _ => isTrue trivial
  | .exit => isTrue trivial

section
variable {tsOf : Key → Int64} {s s' : State} {a : Action} {lake : Lake} {wr : Writer}
  {rest : List TradeRow} {b : Backfilling}

/-! ## New writers -/

/-- A writer that has just connected. -/
theorem ready_connect (ident : String) (cfg : IcebergConfig) (hl : lake.table.schema = Trades.schema)
    (hr : Checked lake [] rest) (ha : Agrees tsOf rest) :
    Ready tsOf (connect ident cfg lake).lake ⟨(connect ident cfg lake).sink, none, []⟩ rest where
  opened := opened_connect ident cfg hl
  since _ hr := absurd hr List.not_mem_nil
  checked := ⟨hr.uniq, hr.absent⟩
  checkedAgrees := ha
  owned _ hp := nomatch hp
  agrees _ hp := nomatch hp
  due _ hp := nomatch hp

/-- Another writer connects. -/
theorem Ready.connect (h : Ready tsOf lake wr rest) (ident : String) (cfg : IcebergConfig) :
    Ready tsOf (connect ident cfg lake).lake wr rest where
  opened := ⟨h.opened.sinkSchema, h.opened.lakeSchema, h.opened.session,
    Nat.lt_succ_of_lt h.opened.uuid, h.opened.fresh⟩
  since := h.since
  checked := ⟨h.checked.uniq, h.checked.absent⟩
  checkedAgrees := h.checkedAgrees
  owned := h.owned
  agrees := h.agrees
  due p hp hu := ⟨(h.due p hp hu).uniq, (h.due p hp hu).absent⟩

/-! ## Checks -/

/-- What the batcher's anti-join leaves of a micro-batch. -/
theorem checked_newRows {rows : List TradeEvent} (sink : IcebergSink) (ha : Agrees tsOf lake.rows)
    (hn : (rows.map TradeEvent.key).Nodup) (he : ∀ e ∈ rows, e.tradeTs = tsOf e.key) :
    Checked lake [] (World.newRows ⟨sink, lake⟩ rows) ∧
      Agrees tsOf (World.newRows ⟨sink, lake⟩ rows) := by
  have heq : World.newRows ⟨sink, lake⟩ rows =
      (rows.filter fun e => e.key ∉ Keyed.keys TradeRow.key lake.rows).map .ofEvent :=
    dedupRows_of_agree fun r hr e hm hk => by rw [ha r hr e.key hk, he e hm]
  obtain ⟨hu, habs⟩ := keys_lacking hn (Keyed.keys TradeRow.key lake.rows)
  rw [heq]
  refine ⟨⟨hu, fun k hk hl => absurd hl (habs k hk)⟩, fun r hr k hk => ?_⟩
  obtain ⟨e, hm, rfl⟩ := List.mem_map.1 hr
  cases hk
  exact congrArg some (he e (List.mem_filter.1 hm).1)

/-- What the backfill's anti-join leaves of its source. -/
theorem checked_candidates {order : RowOrder} {source rows : List TradeRow}
    {start stop marginDays : Int64} (ha : Agrees tsOf lake.rows) (hm : 0 ≤ marginDays)
    (hsrc : ∀ r ∈ source, ∀ k, r.key = some k → ∀ t, r.tradeTs = some t → t = tsOf k)
    (hsub : rows.Subperm
      (Backfill.candidates order source lake.rows start stop marginDays)) :
    Checked lake [] rows ∧ Agrees tsOf rows := by
  have hcand : ∀ c ∈ Backfill.candidates order source lake.rows start stop marginDays, ∀ k,
      c.key = some k → inRange start stop c = true ∧ c.tradeTs = some (tsOf k) ∧
        k ∉ Backfill.heldKeys lake.rows start stop marginDays := fun c hc k hk => by
    have hin := (Backfill.listed_inRange hc).1
    obtain ⟨r, hf, hcomp, hheld, rfl⟩ := Backfill.mem_candidates.1 hc
    rw [Backfill.key_candidateProjection hcomp] at hk
    obtain ⟨t, ht, -⟩ := (Option.any_eq_true _ _).1 hin
    have hr := (List.mem_filter.1 (mem_of_mem_firstRows hf)).1
    have ht' : r.tradeTs = some t := (Backfill.tradeTs_candidateProjection hcomp).symm.trans ht
    exact ⟨hin, by rw [ht, hsrc r hr k hk t ht'], hheld k hk⟩
  obtain ⟨rows', hp, hs⟩ := hsub
  refine ⟨⟨(Keyed.uniq_perm hp).1 (Backfill.uniq_candidates.sublist hs), fun k hk hl => ?_⟩,
    fun r hr k hk => (hcand r (hs.subset (hp.mem_iff.2 hr)) k hk).2.1⟩
  obtain ⟨c, hc, hck⟩ := Keyed.mem_keys.1 hk
  obtain ⟨hin, hts, hheld⟩ := hcand c (hs.subset (hp.mem_iff.2 hc)) k hck
  obtain ⟨t, htm, htk⟩ := Keyed.mem_keys.1 hl
  -- A row of the table with the key has its timestamp, and so lies in the widened window.
  have hmargin : inRange start stop t = true := by
    rw [inRange, ha t htm k htk, ← hts]
    exact hin
  exact absurd (Backfill.mem_heldKeys.2 ⟨t, htm, Backfill.inMargin_of_inRange hm hmargin, htk⟩) hheld

/-- The files of a chunk. -/
theorem chunkFiles_spec {ops : CommitOps} {c : RecordBatch} {w : World}
    (h : Opened Trades.schema w) (hc : c.schema = Trades.schema) :
    (∃ files, chunkFiles ops c w = .ok files (w.advance files.length) ∧
      Named (w.advance files.length) files ∧ (files.flatMap (·.rows)).Perm (trades c)) ∨
    ∃ e w', chunkFiles ops c w = .error e w' ∧ w'.lake = w.lake := by
  by_cases hne : c.numRows = 0
  · refine .inl ⟨[], by rw [chunkFiles, if_pos hne]; rfl, ⟨?_, ?_, ?_⟩, ?_⟩
    · exact fun f hf => absurd hf List.not_mem_nil
    · exact fun f hf => absurd hf List.not_mem_nil
    · exact fun f hf => absurd hf List.not_mem_nil
    · rw [trades, List.length_eq_zero_iff.1 hne]
      exact .nil
  · have ht : RecordBatch.tryNew Trades.schema c.columns = .ok c :=
      RecordBatch.tryNew_eq_ok.2 ⟨by rw [← hc]; rfl, hc ▸ c.nulls, hc, rfl⟩
    rw [chunkFiles, if_neg hne, bind_of_ok (arrowSchema_ok h), ht, Except.withContext_ok,
      bind_of_ok ofExcept_ok]
    cases hw : ops.writeRecords with
    | ok u => exact .inl ⟨w.filesOf ops c, writeRecords_ok hw, h.named, filesOf_rows⟩
    | error why =>
      obtain ⟨e, he⟩ := writeRecords_error c w hw
      exact .inr ⟨e, _, he, rfl⟩

/-- Files that were just written, from checked rows. -/
theorem ready_new {since rows : List TradeRow} {w : World} {files : List DataFile}
    (ho : Opened Trades.schema w) (hn : Named w files)
    (hs : ∀ r ∈ since, r ∈ w.lake.rows) (hp : (files.flatMap (·.rows)).Perm rows)
    (hc : Checked w.lake since (rows ++ rest)) (ha : Agrees tsOf (rows ++ rest)) :
    Ready tsOf w.lake ⟨w.sink, Pending.new w.sink files, since⟩ rest := by
  have hnew : ∀ p, Pending.new w.sink files = some p → files ≠ [] ∧ p.files = files :=
    fun p hpn => by
      unfold Pending.new at hpn
      split at hpn
      · cases hpn
      · rename_i hne
        cases hpn
        exact ⟨fun he => hne (he ▸ rfl), rfl⟩
  obtain ⟨har, hat⟩ := agrees_append.1 ha
  refine ⟨ho, hs, hc.sublist (List.sublist_append_right _ _), hat, fun p hpn => ?_, fun p hpn => ?_,
    fun p hpn _ => ?_⟩
  · obtain ⟨hne, he⟩ := hnew p hpn
    exact ⟨he ▸ hne, he ▸ hn.uuid, he ▸ hn.count⟩
  · rw [Pending.rows, (hnew p hpn).2]
    exact har.perm hp.symm
  · rw [Pending.rows, (hnew p hpn).2]
    exact hc.perm (hp.symm.append_right rest)

/-! ## One step -/

theorem Inv.probe (h : Inv tsOf s) (ops : WriteOps) {rows : List TradeEvent}
    (ha : Admissible tsOf (.probe ops rows)) : Inv tsOf (s.probe ops rows) := by
  obtain ⟨hc, hagr⟩ := checked_newRows s.batcher.sink h.agrees ha.1 ha.2
  unfold State.probe
  rcases writeFiles_spec h.batcher.opened ops rows with
    ⟨files, probe, hf, hn, hp⟩ | ⟨e, w, hf, ho, hl, hg⟩
  · rw [hf]
    refine ⟨h.agrees, ready_new h.batcher.opened.advance hn (fun r hr => absurd hr List.not_mem_nil)
      hp ?_ ?_, h.backfill⟩
    · rw [List.append_nil]
      exact hc
    · rw [List.append_nil]
      exact hagr
  · rw [hf]
    dsimp only
    have hw : w = ⟨w.sink, s.lake⟩ := by rw [← show w.lake = s.lake from hl]
    refine ⟨by rw [hl]; exact h.agrees, ?_, fun b hb => ?_⟩
    · rw [hl]
      exact ⟨hw ▸ ho, fun r hr => absurd hr List.not_mem_nil, checked_nil,
        fun r hr => absurd hr List.not_mem_nil, fun _ hp => (nomatch hp), fun _ hp => (nomatch hp),
        fun _ hp => (nomatch hp)⟩
    · rw [hl, hg]
      exact h.backfill b hb

theorem Inv.commit (h : Inv tsOf s) {p : Pending} (hp : s.batcher.pending = some p)
    (reply : CommitReply) (reloaded : Reply) : Inv tsOf (s.commit p reply reloaded) := by
  have ht := turn_turn p reply reloaded ⟨s.batcher.sink, s.lake⟩
  have hown := h.batcher.owned p hp
  refine ⟨h.batcher.agrees_turn hp h.agrees reply reloaded, h.batcher.turn hp reply reloaded,
    fun b hb => ?_⟩
  obtain ⟨b₀, hb₀, rfl⟩ := Option.map_eq_some_iff.1 hb
  obtain ⟨hr, hs, hne⟩ := h.backfill b₀ hb₀
  refine ⟨hr.foreignTurn ht rfl fun f hf => ?_, hs, ?_⟩
  · rw [hown.uuid f hf]
    exact hne.symm
  · have hgen : (s.commit p reply reloaded).batcher.sink.fileNameGen =
        s.batcher.sink.fileNameGen := by
      show (final (p.turn reply reloaded ⟨s.batcher.sink, s.lake⟩)).sink.fileNameGen = _
      rw [ht.sink]
    rw [hgen]
    exact hne

theorem Inv.restart (h : Inv tsOf s) (ident : String) (cfg : IcebergConfig) :
    Inv tsOf (s.restart ident cfg) := by
  refine ⟨h.agrees, ready_connect ident cfg h.batcher.opened.lakeSchema checked_nil
    fun r hr => absurd hr List.not_mem_nil, fun b hb => ?_⟩
  obtain ⟨hr, hs, -⟩ := h.backfill b hb
  exact ⟨hr.connect ident cfg, hs, Nat.ne_of_lt hr.opened.uuid⟩

theorem Inv.start (h : Inv tsOf s) {cmd : Command} (ha : Admissible tsOf (.start cmd)) :
    Inv tsOf (s.start cmd) := by
  have hschema := h.batcher.opened.lakeSchema
  have hsink : (connect cmd.ident cmd.cfg s.lake).sink.table.schema = Trades.schema := hschema
  refine ⟨h.agrees, h.batcher.connect cmd.ident cmd.cfg, fun b hb => ?_⟩
  obtain ⟨hs, hsub⟩ := chunks_stream cmd.exec (Backfill.candidateSql Backfill.widensNanos cmd.order
    cmd.source s.lake.rows cmd.start cmd.stop cmd.marginDays) cmd.chunkRows
  obtain ⟨hc, hagr⟩ := checked_candidates h.agrees ha.1 ha.2
    (hsub.trans Backfill.candidateSql_sublist.subperm)
  unfold State.start at hb
  dsimp only at hb
  rw [hsink] at hb
  cases hb
  exact ⟨ready_connect cmd.ident cmd.cfg hschema hc hagr, hs,
    (Nat.ne_of_lt h.batcher.opened.uuid).symm⟩

theorem Inv.writeChunk (h : Inv tsOf s) (hb : s.backfill = some b) {c : RecordBatch}
    {cs : List RecordBatch} (hc : b.chunks = c :: cs) (ops : CommitOps) :
    Inv tsOf (s.writeChunk b c cs ops) := by
  obtain ⟨hr, hs, hne⟩ := h.backfill b hb
  rw [hc] at hs
  obtain ⟨hsc, hscs⟩ := List.forall_mem_cons.1 hs
  have hchecked := hr.checked
  have hagr := hr.checkedAgrees
  rw [hc, List.flatMap_cons] at hchecked hagr
  unfold State.writeChunk
  rcases chunkFiles_spec hr.opened hsc with ⟨files, hf, hn, hp⟩ | ⟨e, w, hf, hl⟩
  · rw [hf]
    refine ⟨h.agrees, h.batcher, fun b' hb' => ?_⟩
    cases hb'
    exact ⟨ready_new hr.opened.advance hn hr.since hp hchecked hagr, hscs, hne⟩
  · rw [hf]
    dsimp only
    rw [hl]
    exact ⟨h.agrees, h.batcher, fun b' hb' => nomatch hb'⟩

theorem Inv.commitChunk (h : Inv tsOf s) (hb : s.backfill = some b) {p : Pending}
    (hp : b.writer.pending = some p) (reply : CommitReply) (reloaded : Reply) :
    Inv tsOf (s.commitChunk b p reply reloaded) := by
  obtain ⟨hr, hs, hne⟩ := h.backfill b hb
  have ht := turn_turn p reply reloaded ⟨b.writer.sink, s.lake⟩
  have hturn := hr.turn hp reply reloaded
  refine ⟨hr.agrees_turn hp h.agrees reply reloaded,
    h.batcher.foreignTurn ht rfl fun f hf => ?_, fun b' hb' => ?_⟩
  · rw [(hr.owned p hp).uuid f hf]
    exact hne
  · unfold State.commitChunk at hb'
    dsimp only at hb'
    split at hb'
    · rename_i done w he
      cases hb'
      refine ⟨?_, hs, ?_⟩
      · show Ready tsOf (final (p.turn reply reloaded ⟨b.writer.sink, s.lake⟩)).lake _ _
        rw [he] at hturn ⊢
        exact hturn
      · show w.sink.fileNameGen.uuid ≠ s.batcher.sink.fileNameGen.uuid
        rw [he] at ht
        rw [show w.sink.fileNameGen = b.writer.sink.fileNameGen by rw [show w.sink = _ from ht.sink]]
        exact hne
    · cases hb'

theorem inv_step (ha : Admissible tsOf a) (h : Inv tsOf s) (hs : step s a = some s') :
    Inv tsOf s' := by
  cases step_takes hs with
  | probe hp => exact h.probe _ ha
  | commit hp => exact h.commit hp _ _
  | restart => exact h.restart _ _
  | start hb => exact h.start ha
  | writeChunk hb hp hc => exact h.writeChunk hb hc _
  | commitChunk hb hp => exact h.commitChunk hb hp _ _
  | exit => exact ⟨h.agrees, h.batcher, fun b hb => nomatch hb⟩

/-- Steps that commit nothing leave the rows as they are. -/
theorem rows_step (h : Inv tsOf s) (hs : step s a = some s')
    (hc : ∀ reply reloaded, a ≠ .commit reply reloaded ∧ a ≠ .commitChunk reply reloaded) :
    s'.lake.rows = s.lake.rows := by
  cases step_takes hs with
  | probe hp =>
    unfold State.probe
    rename_i ops rows
    rcases writeFiles_spec h.batcher.opened ops rows with
      ⟨files, probe, hf, -⟩ | ⟨e, w, hf, -, hl, -⟩
    · rw [hf]
      rfl
    · rw [hf]
      exact congrArg Lake.rows hl
  | commit hp => exact absurd rfl (hc _ _).1
  | restart => rfl
  | start hb => rfl
  | writeChunk hb hp hcs =>
    rename_i ops b c cs
    obtain ⟨hr, hsch, -⟩ := h.backfill b hb
    unfold State.writeChunk
    rcases chunkFiles_spec hr.opened (hsch c (hcs ▸ List.mem_cons_self)) with
      ⟨files, hf, -⟩ | ⟨e, w, hf, hl⟩
    · rw [hf]
      rfl
    · rw [hf]
      exact congrArg Lake.rows hl
  | commitChunk hb hp => exact absurd rfl (hc _ _).2
  | exit => rfl

/-- **When a step keeps the keys distinct.** -/
theorem uniq_step_iff (h : Inv tsOf s) (hu : Keyed.Uniq TradeRow.key s.lake.rows)
    (hs : step s a = some s') : Keyed.Uniq TradeRow.key s'.lake.rows ↔ NoClash s a := by
  by_cases hc : ∀ reply reloaded, a ≠ .commit reply reloaded ∧ a ≠ .commitChunk reply reloaded
  · rw [rows_step h hs hc]
    refine iff_of_true hu ?_
    unfold NoClash
    split
    · exact absurd rfl (hc _ _).1
    · exact absurd rfl (hc _ _).2
    · trivial
  · cases step_takes hs with
    | commit hp =>
      refine (h.batcher.uniq_turn_iff hp hu _ _).trans ⟨fun hcl p' hp' => ?_, fun hn => hn _ hp⟩
      rw [Option.mem_def, hp] at hp'
      cases hp'
      exact hcl
    | commitChunk hb hp =>
      refine ((h.backfill _ hb).1.uniq_turn_iff hp hu _ _).trans
        ⟨fun hcl b' hb' p' hp' => ?_, fun hn => hn _ hb _ hp⟩
      rw [Option.mem_def, hb] at hb'
      cases hb'
      rw [Option.mem_def, hp] at hp'
      cases hp'
      exact hcl
    | probe hp => exact absurd (fun _ _ => ⟨nofun, nofun⟩) hc
    | restart => exact absurd (fun _ _ => ⟨nofun, nofun⟩) hc
    | start hb => exact absurd (fun _ _ => ⟨nofun, nofun⟩) hc
    | writeChunk hb hp hcs => exact absurd (fun _ _ => ⟨nofun, nofun⟩) hc
    | exit => exact absurd (fun _ _ => ⟨nofun, nofun⟩) hc

theorem noClash_of_disabled (h : step s a = none) : NoClash s a := by
  unfold NoClash
  split
  · intro p hp
    rw [step, Option.mem_def.1 hp] at h
    cases h
  · intro b hb p hp
    rw [step, Option.mem_def.1 hb] at h
    dsimp only at h
    rw [Option.mem_def.1 hp] at h
    cases h
  · trivial

/-- **When two writers keep one row per key**: along a run, from a table of distinct keys, exactly
when no commit that takes effect brings a key that the other writer has committed since the rows were
checked. -/
theorem one_row_per_key_iff (tsOf : Key → Int64) (ident : String) (cfg : IcebergConfig)
    {lake : Lake} (hl : lake.table.schema = Trades.schema) (ha : Agrees tsOf lake.rows)
    (hu : Keyed.Uniq TradeRow.key lake.rows) {actions : List Action}
    (hadm : ∀ a ∈ actions, Admissible tsOf a) :
    Machine.Always step (fun s => Keyed.Uniq TradeRow.key s.lake.rows) (.init ident cfg lake)
      actions ↔ Machine.EachStep step NoClash (.init ident cfg lake) actions := by
  have hinit : Inv tsOf (.init ident cfg lake) := by
    refine ⟨ha, ready_connect ident cfg hl checked_nil fun r hr => absurd hr List.not_mem_nil, ?_⟩
    intro b hb
    cases hb
  exact Machine.always_iff_eachStep (I := Inv tsOf) (A := Admissible tsOf)
    (fun s a s' hA hI _ hs _ => inv_step hA hI hs) (fun s a s' _ hI hP hs => uniq_step_iff hI hP hs)
    (fun s a h => noClash_of_disabled h) hadm hinit hu

end

/-- A backfill of day 0 from a table that holds trade 1. -/
def fillDayZero : Command where
  ident := "trades.trades"
  cfg := ⟨5⟩
  source := [.ofEvent (btcTrade 1 1000)]
  start := 0
  stop := 86400000000
  marginDays := 1
  chunkRows := 1
  order := stableOrder
  exec := .atOnce

/-- The batcher commits a trade between the backfill's check and its commit: the `fast_append` is
refused for the conflict, retried with the same files, and applied. -/
def conflictOn (e : TradeEvent) : List Action :=
  [.start fillDayZero, .writeChunk .allOk, .probe .allOk [e], .commit .applied (.ok ()),
    .commitChunk (.refused "conflict") (.ok ()), .commitChunk .applied (.ok ())]

theorem admissible_conflictOn {e : TradeEvent} (he : e.tradeTs = 1000000) :
    ∀ a ∈ conflictOn e, Admissible (fun _ => 1000000) a := by
  intro a ha
  simp only [conflictOn, List.mem_cons, List.not_mem_nil, or_false] at ha
  rcases ha with rfl | rfl | rfl | rfl | rfl | rfl
  · refine ⟨by decide, fun r hr k hk t ht => ?_⟩
    rw [List.mem_singleton.1 hr] at ht
    cases ht
    show (btcTrade 1 1000).tradeTs = 1000000
    decide
  · trivial
  · exact ⟨List.nodup_singleton _, fun e' he' => List.mem_singleton.1 he' ▸ he⟩
  · trivial
  · trivial
  · trivial

/-- With another trade of the day the retry is harmless. -/
theorem one_row_per_key_iff_other :
    Machine.Always step (fun s => Keyed.Uniq TradeRow.key s.lake.rows)
      (.init "trades.trades" ⟨5⟩ .created) (conflictOn (btcTrade 2 1000)) :=
  (one_row_per_key_iff (fun _ => 1000000) "trades.trades" ⟨5⟩ rfl
    (fun r hr => absurd hr List.not_mem_nil) Keyed.uniq_nil
    (admissible_conflictOn (by decide))).2 (by decide +kernel)

/-- With the trade of the backfill it is stored twice. -/
theorem lost_update :
    (conflictOn (btcTrade 1 1000)).Forall (Admissible fun _ => 1000000) ∧
    Keyed.keys TradeRow.key Lake.created.rows = [] ∧
    (Machine.run step (.init "trades.trades" ⟨5⟩ .created) (conflictOn (btcTrade 1 1000))).map
      (fun s => Keyed.keys TradeRow.key s.lake.rows) =
    some [(btcTrade 1 1000).key, (btcTrade 1 1000).key] :=
  ⟨List.forall_iff_forall_mem.2 (admissible_conflictOn (by decide)), rfl, by decide +kernel⟩

end Writers
