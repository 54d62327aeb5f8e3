import CryptoLakehouse.Query.Proof.Candidates

/-!
# Re-running crypto-backfill

Whatever runs have appended was on the list for the first target (`Progress`), so the list of the
next run is what is left of it (`Progress.mem_candidates`): a run that completes appends the rest,
and the list is empty from then on (`rerun_converges`).
-/

namespace Query.Backfill

open Trades Sink

/-- Runs on a table of `target` have appended rows of its list, no key twice. -/
structure Progress (order : RowOrder) (source target : List TradeRow)
    (start stop marginDays : Int64) (lake : Lake) (appended : List TradeRow) : Prop where
  schema : lake.table.schema = schema
  rows : lake.rows.Perm (target ++ appended)
  listed : ∀ a ∈ appended, a ∈ candidates order source target start stop marginDays
  uniq : Keyed.Uniq TradeRow.key appended

section
variable {into : String} {order : RowOrder} {source target appended : List TradeRow}
  {start stop marginDays : Int64} {chunkRows : Nat} {ops : RunOps} {lake : Lake} {r c : TradeRow}
  {k : Key}

theorem inMargin_of_inRange (hm : 0 ≤ marginDays) (h : inRange start stop r = true) :
    inMargin start stop marginDays r = true := by
  obtain ⟨t, ht, hb⟩ := (Option.any_eq_true _ _).1 h
  simp only [Bool.and_eq_true, decide_eq_true_eq, Int64.le_iff_toInt_le, Int64.lt_iff_toInt_lt] at hb
  have h0 : 0 ≤ marginDays.toInt := Int64.le_iff_toInt_le.1 hm
  have hday : microsPerDay.toInt = 86400000000 := by decide
  refine (Option.any_eq_true _ _).2 ⟨t, ht, ?_⟩
  simp only [Bool.and_eq_true, decide_eq_true_eq, hday]
  omega

/-- A listed row is complete and lies in the window. -/
theorem listed_inRange (h : c ∈ candidates order source target start stop marginDays) :
    inRange start stop c = true ∧ ∃ k, c.key = some k := by
  obtain ⟨r, hf, hc, -, rfl⟩ := mem_candidates.1 h
  refine ⟨?_, exists_key full_candidateProjection⟩
  rw [inRange, tradeTs_candidateProjection hc]
  exact (List.mem_filter.1 (mem_of_mem_firstRows hf)).2

theorem Progress.first {lake : Lake} (hs : lake.table.schema = Trades.schema) :
    Progress order source lake.rows start stop marginDays lake [] :=
  ⟨hs, by rw [List.append_nil], fun a ha => absurd ha List.not_mem_nil, Keyed.uniq_nil⟩

/-- What the target holds in the widened window: what it held at first, and what was appended. -/
theorem Progress.mem_heldKeys (hm : 0 ≤ marginDays)
    (h : Progress order source target start stop marginDays lake appended) :
    k ∈ heldKeys lake.rows start stop marginDays ↔
      k ∈ heldKeys target start stop marginDays ∨ k ∈ Keyed.keys TradeRow.key appended := by
  simp only [Backfill.mem_heldKeys, Keyed.mem_keys, h.rows.mem_iff, List.mem_append]
  refine ⟨fun hheld => ?_, fun hor => ?_⟩
  · obtain ⟨t, ht, hw, hk⟩ := hheld
    rcases ht with ht | ht
    · exact .inl ⟨t, ht, hw, hk⟩
    · exact .inr ⟨t, ht, hk⟩
  · rcases hor with ⟨t, ht, hw, hk⟩ | ⟨t, ht, hk⟩
    · exact ⟨t, .inl ht, hw, hk⟩
    · exact ⟨t, .inr ht, inMargin_of_inRange hm (listed_inRange (h.listed t ht)).1, hk⟩

/-- **The list of the next run**: what is left of the first. -/
theorem Progress.mem_candidates (hm : 0 ≤ marginDays)
    (h : Progress order source target start stop marginDays lake appended) :
    c ∈ candidates order source lake.rows start stop marginDays ↔
      c ∈ candidates order source target start stop marginDays ∧
        ∀ k, c.key = some k → k ∉ Keyed.keys TradeRow.key appended := by
  simp only [Backfill.mem_candidates, h.mem_heldKeys hm, not_or]
  refine ⟨fun hnext => ?_, fun hleft => ?_⟩
  · obtain ⟨r, hf, hc, hn, he⟩ := hnext
    refine ⟨⟨r, hf, hc, fun k hk => (hn k hk).1, he⟩, fun k hk => ?_⟩
    rw [← he, key_candidateProjection hc] at hk
    exact (hn k hk).2
  · obtain ⟨⟨r, hf, hc, hn, he⟩, hnew⟩ := hleft
    refine ⟨r, hf, hc, fun k hk => ⟨hn k hk, hnew k ?_⟩, he⟩
    rw [← he, key_candidateProjection hc]
    exact hk

/-- Appending rows of the next run's list. -/
theorem Progress.append (hm : 0 ≤ marginDays) {lake' : Lake} {added : List TradeRow}
    (h : Progress order source target start stop marginDays lake appended)
    (hs : lake'.table.schema = lake.table.schema) (hg : Grown lake lake' added)
    (hsub : added.Subperm (candidates order source lake.rows start stop marginDays)) :
    Progress order source target start stop marginDays lake' (appended ++ added) where
  schema := hs.trans h.schema
  rows := by
    rw [← List.append_assoc]
    exact hg.rows.trans (h.rows.append_right added)
  listed a ha := by
    rcases List.mem_append.1 ha with ha | ha
    · exact h.listed a ha
    · exact ((h.mem_candidates hm).1 (hsub.subset ha)).1
  uniq := by
    obtain ⟨added', hp, hsl⟩ := hsub
    refine Keyed.uniq_append.2 ⟨h.uniq, (Keyed.uniq_perm hp).1 (uniq_candidates.sublist hsl), ?_⟩
    intro k hk hk'
    obtain ⟨c, hc, hck⟩ := Keyed.mem_keys.1 hk'
    exact ((h.mem_candidates hm).1 (hsl.subset (hp.mem_iff.2 hc))).2 k hck hk

theorem execute_spec (into : String) (source : List TradeRow) (start stop marginDays : Int64)
    (chunkRows : Nat) (ops : RunOps) (h : lake.table.schema = schema) :
    Ran (candidates ops.order source lake.rows start stop marginDays) lake
      (execute into source start stop marginDays chunkRows ops lake) :=
  appendQuery_spec h ops into
    (fun rows => candidates ops.order source rows start stop marginDays) start stop chunkRows

/-- **One run**, whether it completes or not. -/
theorem Progress.execute (hm : 0 ≤ marginDays) (ho : ops.order = order)
    (h : Progress order source target start stop marginDays lake appended) :
    ∃ added, Progress order source target start stop marginDays
      (execute into source start stop marginDays chunkRows ops lake).1 (appended ++ added) := by
  have hr := execute_spec into source start stop marginDays chunkRows ops h.schema
  obtain ⟨added, hsub, -, hg⟩ := hr.grown
  exact ⟨added, h.append hm hr.schema hg (ho ▸ hsub)⟩

/-- **All the runs.** -/
theorem Progress.afterRuns (hm : 0 ≤ marginDays) (runs : List RunOps)
    (ho : ∀ ops ∈ runs, ops.order = order)
    (h : Progress order source target start stop marginDays lake appended) :
    ∃ appended, Progress order source target start stop marginDays
      (afterRuns (Backfill.execute into source start stop marginDays chunkRows) lake runs)
      appended := by
  induction runs generalizing lake appended with
  | nil => exact ⟨appended, h⟩
  | cons ops runs ih =>
    obtain ⟨added, h'⟩ := h.execute hm (ho ops List.mem_cons_self)
    exact ih (fun o hr => ho o (List.mem_cons_of_mem _ hr)) h'

/-- A run that completes appends what is left of the list. -/
theorem Progress.complete (hm : 0 ≤ marginDays) (ho : ops.order = order)
    (h : Progress order source target start stop marginDays lake appended) {n : Nat}
    (hok : (Backfill.execute into source start stop marginDays chunkRows ops lake).2 = .ok n) :
    ∃ appended, Progress order source target start stop marginDays
        (Backfill.execute into source start stop marginDays chunkRows ops lake).1 appended ∧
      ∀ c ∈ candidates order source target start stop marginDays,
        ∀ k, c.key = some k → k ∈ Keyed.keys TradeRow.key appended := by
  have hr := execute_spec into source start stop marginDays chunkRows ops h.schema
  have hg := (hr.ok n hok).2
  rw [ho] at hg
  refine ⟨_, h.append hm hr.schema hg (List.Subperm.refl _), fun c hc k hk => ?_⟩
  rw [Keyed.keys_append, List.mem_append]
  by_cases hin : k ∈ Keyed.keys TradeRow.key appended
  · exact .inl hin
  · refine .inr (Keyed.mem_keys_of_mem ((h.mem_candidates hm).2 ⟨hc, fun k' hk' => ?_⟩) hk)
    rw [hk] at hk'
    cases hk'
    exact hin

/-- A run with an empty list leaves the rows as they are. -/
theorem rows_execute_of_nil (hs : lake.table.schema = schema)
    (hnil : candidates ops.order source lake.rows start stop marginDays = []) :
    (execute into source start stop marginDays chunkRows ops lake).1.rows = lake.rows := by
  obtain ⟨added, hsub, -, files, hf, hp⟩ :=
    (execute_spec into source start stop marginDays chunkRows ops hs).grown
  rw [hnil] at hsub
  rw [List.subperm_nil.1 hsub] at hp
  rw [Lake.rows, Table.rows, hf, List.flatMap_append, List.perm_nil.1 hp, List.append_nil]
  rfl

end

/-- **Re-running converges.** After any runs and one that completes, all with one way of breaking
ties: no key was appended twice; each key that was missing at first was appended once; no key that
the target held in the widened window was appended; and a further run appends nothing. -/
theorem rerun_converges (into : String) (source : List TradeRow) (start stop marginDays : Int64)
    (chunkRows : Nat) (hm : 0 ≤ marginDays) (target : Lake) (hs : target.table.schema = schema)
    (order : RowOrder) (runs : List RunOps) (last further : RunOps)
    (ho : ∀ ops ∈ runs ++ [last, further], ops.order = order) (n : Nat)
    (hok : (execute into source start stop marginDays chunkRows last (afterRuns
      (execute into source start stop marginDays chunkRows) target runs)).2 = .ok n) :
    ∃ appended,
      (afterRuns (execute into source start stop marginDays chunkRows) target
        (runs ++ [last])).rows.Perm (target.rows ++ appended) ∧
      ((∀ a ∈ appended, a.full = true) ∧ Keyed.Uniq TradeRow.key appended) ∧
      (∀ r ∈ missing order source target.rows start stop marginDays, ∀ k, r.key = some k →
        (Keyed.keys TradeRow.key appended).count k = 1) ∧
      (∀ a ∈ appended, ∀ t ∈ target.rows, inMargin start stop marginDays t = true →
        ∀ k, a.key = some k → t.key ≠ some k) ∧
      (afterRuns (execute into source start stop marginDays chunkRows) target
          (runs ++ [last, further])).rows =
        (afterRuns (execute into source start stop marginDays chunkRows) target
          (runs ++ [last])).rows := by
  have hlast := ho last (List.mem_append_right _ List.mem_cons_self)
  have hfurther := ho further (List.mem_append_right _ (List.mem_cons_of_mem _ List.mem_cons_self))
  have hfirst : Progress order source target.rows start stop marginDays target [] := .first hs
  obtain ⟨before, hb⟩ := hfirst.afterRuns hm runs fun ops h => ho ops (List.mem_append_left _ h)
  obtain ⟨appended, hp, hall⟩ := hb.complete hm hlast hok
  rw [show runs ++ [last, further] = runs ++ [last] ++ [further] by simp]
  simp only [afterRuns_concat]
  refine ⟨appended, hp.rows, ⟨fun a ha => ?_, hp.uniq⟩, fun r hr k hk => ?_,
    fun a ha t ht hw k hk hkt => ?_, ?_⟩
  · obtain ⟨r, -, -, -, rfl⟩ := mem_candidates.1 (hp.listed a ha)
    exact full_candidateProjection
  · have hc := (mem_missing.1 hr).2.1
    have hmem : candidateProjection r ∈ candidates order source target.rows start stop marginDays :=
      List.mem_map_of_mem hr
    exact hp.uniq.count_eq_one (hall _ hmem k ((key_candidateProjection hc).trans hk))
  · obtain ⟨r, -, hc, hn, rfl⟩ := mem_candidates.1 (hp.listed a ha)
    rw [key_candidateProjection hc] at hk
    exact hn k hk (mem_heldKeys.2 ⟨t, ht, hw, hkt⟩)
  · refine rows_execute_of_nil hp.schema (List.eq_nil_iff_forall_not_mem.2 fun c hc => ?_)
    rw [hfurther] at hc
    obtain ⟨hl, hn⟩ := (hp.mem_candidates hm).1 hc
    obtain ⟨-, k, hk⟩ := listed_inRange hl
    exact hn k hk (hall c hl k hk)

/-- Three trades, of which the target holds one; the first run fails after one row. -/
theorem rerun_converges_three : ∃ appended,
    (afterRuns (execute "trades.trades" [.ofEvent (btcTrade 1 1000), .ofEvent (btcTrade 2 2000),
        .ofEvent (btcTrade 3 3000)] 0 86400000000 1 1) (.holding [.ofEvent (btcTrade 2 2000)])
      ([.failingAfter 1] ++ [.allOk])).rows.Perm
        ((Lake.holding [.ofEvent (btcTrade 2 2000)]).rows ++ appended) ∧
    Keyed.Uniq TradeRow.key appended :=
  have h := rerun_converges "trades.trades" [.ofEvent (btcTrade 1 1000),
    .ofEvent (btcTrade 2 2000), .ofEvent (btcTrade 3 3000)] 0 86400000000 1 1 (by decide)
    (.holding [.ofEvent (btcTrade 2 2000)]) rfl stableOrder [.failingAfter 1] .allOk .allOk
    (by simp [RunOps.failingAfter, RunOps.allOk]) 3 (by decide +kernel)
  h.imp fun _ h => ⟨h.1, h.2.1.2⟩

end Query.Backfill
