import Mathlib.Data.List.Pairwise
import CryptoLakehouse.Lib.Machine
import CryptoLakehouse.Query.Proof.Backfill

/-!
# Overlapping windows

Runs of crypto-backfill over any windows, one after the other. When the rows of a key, of the source
and of the target together, lie at most the margin apart (`Spread`), the range that the anti-join
looks at has every copy of a key of which a row lies in the window (`inMargin_of_near`). What a run
finds there may come from runs over other windows, so the invariant (`Covered`) says where each row
of the target comes from.

* `Covered.step` — a complete run keeps it, and leaves no complete first row behind.
* `overlapping_windows` — so no sequence of complete runs writes a key twice.
-/

namespace Query.Backfill

open Trades Sink

/-- An `--execute` run. -/
structure WindowRun where
  start : Int64
  stop : Int64
  chunkRows : Nat
  ops : RunOps

/-- The table after a complete run. -/
def completeRun (into : String) (source : List TradeRow) (marginDays : Int64) (lake : Lake)
    (run : WindowRun) : Option Lake :=
  match execute into source run.start run.stop marginDays run.chunkRows run.ops lake with
  | (lake, .ok _) => some lake
  | (_, .error _) => none

/-- Two rows have a `trade_ts`, at most the margin apart. -/
def Near (marginDays : Int64) (a b : TradeRow) : Prop :=
  ∃ t t', a.tradeTs = some t ∧ b.tradeTs = some t' ∧
    t.toInt - t'.toInt ≤ marginDays.toInt * microsPerDay.toInt ∧
    t'.toInt - t.toInt ≤ marginDays.toInt * microsPerDay.toInt

/-- Any two rows of one key are near. -/
def Spread (marginDays : Int64) (rows : List TradeRow) : Prop :=
  rows.Pairwise fun a b => ∀ k, a.key = some k → b.key = some k → Near marginDays a b

/-- The rows of `lake` are of distinct keys, and each is of the first target or stands for a row of
the source, with its key and `trade_ts`. -/
structure Covered (source target : List TradeRow) (lake : Lake) : Prop where
  schema : lake.table.schema = schema
  uniq : Keyed.Uniq TradeRow.key lake.rows
  origin : ∀ t ∈ lake.rows, t ∈ target ∨
    ∃ r ∈ source, t.key = r.key ∧ t.tradeTs = r.tradeTs

section
variable {into : String} {source target : List TradeRow} {marginDays : Int64} {lake lake' : Lake}
  {run : WindowRun} {a b r t : TradeRow} {k : Key} {start stop : Int64}

/-! ## Near rows -/

theorem Near.symm (h : Near marginDays a b) : Near marginDays b a := by
  obtain ⟨t, t', ht, ht', h1, h2⟩ := h
  exact ⟨t', t, ht', ht, h2, h1⟩

theorem near_self (hm : 0 ≤ marginDays) (h : (a.tradeTs).isSome) : Near marginDays a a := by
  obtain ⟨t, ht⟩ := Option.isSome_iff_exists.1 h
  have h0 : 0 ≤ marginDays.toInt := Int64.le_iff_toInt_le.1 hm
  have hday : microsPerDay.toInt = 86400000000 := by decide
  refine ⟨t, t, ht, ht, ?_, ?_⟩
  · rw [hday]
    omega
  · rw [hday]
    omega

/-- Of the rows near one in the window, none is beyond the margin. -/
theorem inMargin_of_near (h : Near marginDays a b) (hw : inRange start stop a = true) :
    inMargin start stop marginDays b = true := by
  obtain ⟨t, t', ht, ht', h1, h2⟩ := h
  obtain ⟨u, hu, hb⟩ := (Option.any_eq_true _ _).1 hw
  obtain rfl := Option.some.inj (ht.symm.trans hu)
  simp only [Bool.and_eq_true, decide_eq_true_eq, Int64.le_iff_toInt_le, Int64.lt_iff_toInt_lt] at hb
  refine (Option.any_eq_true _ _).2 ⟨t', ht', ?_⟩
  simp only [Bool.and_eq_true, decide_eq_true_eq]
  omega

/-- The copies of a key are near, also those that were written. -/
theorem Covered.near (h : Covered source target lake) (hm : 0 ≤ marginDays)
    (hspread : Spread marginDays (source ++ target)) (hr : r ∈ source)
    (hw : inRange start stop r = true) (ht : t ∈ lake.rows) (hk : r.key = some k)
    (hkt : t.key = some k) : Near marginDays r t := by
  obtain ⟨hsource, -, hcross⟩ := List.pairwise_append.1 hspread
  rcases h.origin t ht with htarget | ⟨r', hr', hk', htime⟩
  · exact hcross r hr t htarget k hk hkt
  · have hnear : Near marginDays r r' := by
      by_cases he : r = r'
      · subst he
        obtain ⟨u, hu, -⟩ := (Option.any_eq_true _ _).1 hw
        exact near_self hm (by rw [hu]; rfl)
      · have : Std.Symm fun a b : TradeRow => ∀ k, a.key = some k → b.key = some k →
            Near marginDays a b := ⟨fun _ _ h k hk hk' => (h k hk' hk).symm⟩
        exact hsource.forall hr hr' he k hk (hk' ▸ hkt)
    obtain ⟨u, u', hu, hu', hle⟩ := hnear
    exact ⟨u, u', hu, htime.trans hu', hle⟩

/-! ## One run -/

theorem covered_first (hs : lake.table.schema = Trades.schema)
    (hu : Keyed.Uniq TradeRow.key lake.rows) : Covered source lake.rows lake :=
  ⟨hs, hu, fun _ ht => .inl ht⟩

/-- A complete run has appended its candidates. -/
theorem grown_of_completeRun (hs : lake.table.schema = Trades.schema)
    (h : completeRun into source marginDays lake run = some lake') :
    lake'.table.schema = Trades.schema ∧ lake'.rows.Perm (lake.rows ++
      candidates run.ops.order source lake.rows run.start run.stop marginDays) := by
  have hran := execute_spec into source run.start run.stop marginDays run.chunkRows run.ops hs
  unfold completeRun at h
  split at h
  · rename_i n he
    cases h
    rw [he] at hran
    exact ⟨hran.schema.trans hs, (hran.ok n rfl).2.rows⟩
  · cases h

/-- The key of a candidate is new to the target, wherever the target holds it. -/
theorem Covered.fresh (h : Covered source target lake) (hm : 0 ≤ marginDays)
    (hspread : Spread marginDays (source ++ target))
    (hk : k ∈ Keyed.keys TradeRow.key
      (candidates run.ops.order source lake.rows run.start run.stop marginDays)) :
    k ∉ Keyed.keys TradeRow.key lake.rows := by
  obtain ⟨hn, r, hf, -, hkr⟩ := mem_keys_candidates.1 hk
  obtain ⟨hr, hw⟩ := List.mem_filter.1 (mem_of_mem_firstRows hf)
  intro hx
  obtain ⟨t, ht, hkt⟩ := Keyed.mem_keys.1 hx
  exact hn (mem_heldKeys.2 ⟨t, ht, inMargin_of_near (h.near hm hspread hr hw ht hkr hkt) hw, hkt⟩)

/-- **A complete run** keeps what the target is made of. -/
theorem Covered.step (h : Covered source target lake) (hm : 0 ≤ marginDays)
    (hspread : Spread marginDays (source ++ target))
    (hstep : completeRun into source marginDays lake run = some lake') :
    Covered source target lake' := by
  obtain ⟨hs, hperm⟩ := grown_of_completeRun h.schema hstep
  refine ⟨hs, (Keyed.uniq_perm hperm).2 (Keyed.uniq_append.2 ⟨h.uniq, uniq_candidates, ?_⟩),
    fun t ht => ?_⟩
  · exact fun k hk hk' => h.fresh hm hspread hk' hk
  · rcases List.mem_append.1 (hperm.mem_iff.1 ht) with ht | ht
    · exact h.origin t ht
    · obtain ⟨r, hf, hc, -, rfl⟩ := mem_candidates.1 ht
      have hr := (List.mem_filter.1 (mem_of_mem_firstRows hf)).1
      exact .inr ⟨r, hr, key_candidateProjection hc, tradeTs_candidateProjection hc⟩

/-- Runs take no key away. -/
theorem mem_keys_of_completeRun (hs : lake.table.schema = Trades.schema)
    (hstep : completeRun into source marginDays lake run = some lake')
    (hk : k ∈ Keyed.keys TradeRow.key lake.rows) : k ∈ Keyed.keys TradeRow.key lake'.rows := by
  rw [(Keyed.keys_perm (grown_of_completeRun hs hstep).2).mem_iff, Keyed.keys_append,
    List.mem_append]
  exact .inl hk

/-- **A complete run leaves no complete first row behind.** -/
theorem written_of_completeRun (hs : lake.table.schema = Trades.schema)
    (hstep : completeRun into source marginDays lake run = some lake')
    (hf : r ∈ firstRows run.ops.order (source.filter (inRange run.start run.stop)))
    (hc : complete r = true) (hk : r.key = some k) : k ∈ Keyed.keys TradeRow.key lake'.rows := by
  rw [(Keyed.keys_perm (grown_of_completeRun hs hstep).2).mem_iff, Keyed.keys_append,
    List.mem_append]
  by_cases hheld : k ∈ heldKeys lake.rows run.start run.stop marginDays
  · obtain ⟨t, ht, -, hkt⟩ := mem_heldKeys.1 hheld
    exact .inl (Keyed.mem_keys_of_mem ht hkt)
  · exact .inr (mem_keys_candidates.2 ⟨hheld, r, hf, hc, hk⟩)

/-! ## All the runs -/

theorem schema_of_runs {runs : List WindowRun} (hs : lake.table.schema = Trades.schema)
    (h : Machine.run (completeRun into source marginDays) lake runs = some lake') :
    lake'.table.schema = Trades.schema :=
  Machine.run_inv (I := fun l => l.table.schema = Trades.schema)
    (fun _ _ _ hs hstep => (grown_of_completeRun hs hstep).1) hs h

/-- What a run has written is there at the end. -/
theorem mem_keys_of_runs {runs : List WindowRun} (hs : lake.table.schema = Trades.schema)
    (h : Machine.run (completeRun into source marginDays) lake runs = some lake')
    (hk : k ∈ Keyed.keys TradeRow.key lake.rows) : k ∈ Keyed.keys TradeRow.key lake'.rows := by
  have hI := Machine.run_inv
    (I := fun l => l.table.schema = Trades.schema ∧ k ∈ Keyed.keys TradeRow.key l.rows)
    (fun _ _ _ hI hstep => ⟨(grown_of_completeRun hI.1 hstep).1,
      mem_keys_of_completeRun hI.1 hstep hI.2⟩) ⟨hs, hk⟩ h
  exact hI.2

/-- Every window's complete first rows are in the target at the end. -/
theorem written_of_runs {runs : List WindowRun} (hs : lake.table.schema = Trades.schema)
    (h : Machine.run (completeRun into source marginDays) lake runs = some lake')
    (hrun : run ∈ runs)
    (hf : r ∈ firstRows run.ops.order (source.filter (inRange run.start run.stop)))
    (hc : complete r = true) (hk : r.key = some k) : k ∈ Keyed.keys TradeRow.key lake'.rows := by
  obtain ⟨before, after, rfl⟩ := List.append_of_mem hrun
  obtain ⟨l, hbefore, hrest⟩ := Machine.run_append.1 h
  obtain ⟨l', hstep, hafter⟩ := Machine.run_cons.1 hrest
  have hs₁ := schema_of_runs hs hbefore
  have hs₂ := (grown_of_completeRun hs₁ hstep).1
  exact mem_keys_of_runs hs₂ hafter (written_of_completeRun hs₁ hstep hf hc hk)

end

/-- **Overlapping windows cannot duplicate.** When the rows of a key lie at most the margin apart,
any sequence of complete runs, over any windows, keeps one row per key in the target, and in the end
it holds every key whose first row in one of the windows is complete. -/
theorem overlapping_windows (into : String) (source : List TradeRow) (marginDays : Int64)
    (hm : 0 ≤ marginDays) (target : Lake) (hs : target.table.schema = schema)
    (hu : Keyed.Uniq TradeRow.key target.rows) (hspread : Spread marginDays (source ++ target.rows))
    (runs : List WindowRun) (last : Lake)
    (h : Machine.run (completeRun into source marginDays) target runs = some last) :
    Keyed.Uniq TradeRow.key last.rows ∧
    ∀ run ∈ runs, ∀ r ∈ firstRows run.ops.order (source.filter (inRange run.start run.stop)),
      complete r = true → ∀ k, r.key = some k → k ∈ Keyed.keys TradeRow.key last.rows := by
  have hcov : Covered source target.rows last :=
    Machine.run_inv (I := Covered source target.rows)
      (fun _ _ _ hI hstep => hI.step hm hspread hstep) (covered_first hs hu) h
  exact ⟨hcov.uniq, fun run hrun r hf hc k hk => written_of_runs hs h hrun hf hc hk⟩

/-- Two copies of a trade a day apart, and windows of which each sees one of them. -/
def apart : List TradeRow :=
  [.ofEvent (btcTrade 1 1000), .ofEvent (btcTrade 1 86401000)]

def apartRuns : List WindowRun :=
  [⟨86400000000, 172800000000, 1, .allOk⟩, ⟨0, 86400000000, 1, .allOk⟩]

/-- The margin of one day is just enough. -/
theorem overlapping_windows_apart : ∃ last,
    Machine.run (completeRun "trades.trades" apart 1) .created apartRuns = some last ∧
    Keyed.Uniq TradeRow.key last.rows := by
  have hrun : ∃ last,
      Machine.run (completeRun "trades.trades" apart 1) .created apartRuns = some last :=
    Option.isSome_iff_exists.1 (by decide +kernel)
  obtain ⟨last, hl⟩ := hrun
  have hspread : Spread 1 (apart ++ Lake.created.rows) := by
    refine List.pairwise_cons.2 ⟨fun b hb k _ _ => ?_, List.pairwise_singleton _ _⟩
    rw [List.mem_singleton.1 hb]
    exact ⟨1000000, 86401000000, by decide +kernel, by decide +kernel, by decide, by decide⟩
  exact ⟨last, hl, (overlapping_windows "trades.trades" apart 1 (by decide) .created rfl
    Keyed.uniq_nil hspread apartRuns last hl).1⟩

end Query.Backfill
