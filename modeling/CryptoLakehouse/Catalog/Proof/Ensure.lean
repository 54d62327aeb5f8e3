import CryptoLakehouse.Lib.Machine
import CryptoLakehouse.Catalog.Ensure

/-!
# Provisioning is safe and converges

Any number of processes run `with_catalog` at once, for any destinations.

* `Changes` — all that a request can do to the catalog.
* `Inv` — a process that has a table has the catalog's.
* `ensure_agrees` — no table is ever replaced, and processes of one destination end with one table.
* `Budget` — a process fails at most once for each thing that others made before it.
* `ensure_converges` — with a catalog that answers, at most two starts fail, and one start is enough
  when the others are quiet.
-/

namespace Provisioning

open Trades Batcher.Settings

/-! ## The catalog -/

/-- Tables are in namespaces that exist, and have uuids of their own. -/
structure Catalog.Ok (c : Catalog) : Prop where
  inNamespace : ∀ ident table, c.tables ident = some table → ident.namespaceIdent ∈ c.namespaces
  fresh : ∀ ident table, c.tables ident = some table → table.uuid < c.uuids
  distinct : ∀ i j t u, c.tables i = some t → c.tables j = some u → t.uuid = u.uuid → i = j

/-- Everything of `c` is still there, unchanged. -/
structure Catalog.Extends (c' c : Catalog) : Prop where
  namespaces : c.namespaces ⊆ c'.namespaces
  tables : ∀ ident table, c.tables ident = some table → c'.tables ident = some table

theorem Catalog.Extends.refl (c : Catalog) : c.Extends c := ⟨List.Subset.refl _, fun _ _ h => h⟩

theorem Catalog.Extends.trans {c c' c'' : Catalog} (h : c'.Extends c) (h' : c''.Extends c') :
    c''.Extends c :=
  ⟨List.Subset.trans h.namespaces h'.namespaces, fun i t ht => h'.tables i t (h.tables i t ht)⟩

/-- The tables after `create_table`. -/
theorem Catalog.createTable_some {c : Catalog} {ident i : TableIdent} {creation : TableCreation}
    {table : Table} : (c.createTable ident creation).tables i = some table ↔
    (i = ident ∧ table = ⟨c.uuids, creation⟩) ∨ (i ≠ ident ∧ c.tables i = some table) := by
  unfold Catalog.createTable
  by_cases h : i = ident
  · subst h
    simp [eq_comm]
  · simp [h]

/-- All that a request of a process can do to the catalog. -/
inductive Changes (cfg : IcebergConfig) (c : Catalog) : Catalog → Prop
  | same : Changes cfg c c
  | namespaceMade : cfg.namespaceName ∉ c.namespaces →
      Changes cfg c (c.createNamespace cfg.namespaceName)
  | tableMade : cfg.namespaceName ∈ c.namespaces → c.tables (identOf cfg) = none →
      Changes cfg c (c.createTable (identOf cfg) (creationOf cfg))

section
variable {cfg : IcebergConfig} {c c' : Catalog}

theorem Changes.extends (h : Changes cfg c c') : c'.Extends c := by
  cases h with
  | same => exact .refl c
  | namespaceMade _ => exact ⟨List.subset_append_left _ _, fun _ _ h => h⟩
  | tableMade _ hn =>
    refine ⟨List.Subset.refl _, fun i t ht => Catalog.createTable_some.2 (.inr ⟨?_, ht⟩)⟩
    rintro rfl
    simp [hn] at ht

theorem Changes.ok (h : Changes cfg c c') (hc : c.Ok) : c'.Ok := by
  cases h with
  | same => exact hc
  | namespaceMade _ =>
    exact ⟨fun i t ht => List.mem_append_left _ (hc.inNamespace i t ht), hc.fresh, hc.distinct⟩
  | tableMade hm hn =>
    refine ⟨fun i t ht => ?_, fun i t ht => ?_, fun i j t u hi hj he => ?_⟩
    · rcases Catalog.createTable_some.1 ht with ⟨rfl, -⟩ | ⟨-, ht⟩
      · exact hm
      · exact hc.inNamespace i t ht
    · show t.uuid < c.uuids + 1
      rcases Catalog.createTable_some.1 ht with ⟨-, rfl⟩ | ⟨-, ht⟩
      · exact Nat.lt_succ_self _
      · have := hc.fresh i t ht
        omega
    · rcases Catalog.createTable_some.1 hi with ⟨rfl, rfl⟩ | ⟨-, hi⟩ <;>
        rcases Catalog.createTable_some.1 hj with ⟨rfl, rfl⟩ | ⟨-, hj⟩
      · rfl
      · exact absurd he (Nat.ne_of_gt (hc.fresh j u hj))
      · exact absurd he (Nat.ne_of_lt (hc.fresh i t hi))
      · exact hc.distinct i j t u hi hj he

/-- A table of the new catalog was there, or has just been made as the process asks. -/
theorem Changes.origin (h : Changes cfg c c') {ident : TableIdent} {table : Table}
    (ht : c'.tables ident = some table) : c.tables ident = some table ∨
      ident = identOf cfg ∧ table.creation = creationOf cfg := by
  cases h with
  | same => exact .inl ht
  | namespaceMade _ => exact .inl ht
  | tableMade _ _ =>
    rcases Catalog.createTable_some.1 ht with ⟨rfl, rfl⟩ | ⟨-, ht⟩
    · exact .inr ⟨rfl, rfl⟩
    · exact .inl ht

/-! ## A request -/

/-- The table that a process has. -/
def Proc.table? : Proc → Option Table
  | probing table => some table
  | ready table => some table
  | _ => none

/-- A process has the catalog's table of its destination, and creates one only in a namespace that
exists. -/
structure Proc.Fits (cfg : IcebergConfig) (c : Catalog) (p : Proc) : Prop where
  table : ∀ t, p.table? = some t → c.tables (identOf cfg) = some t
  creating : p = .creatingTable → cfg.namespaceName ∈ c.namespaces

theorem Proc.Fits.mono {p : Proc} (h : p.Fits cfg c) (he : c'.Extends c) : p.Fits cfg c' :=
  ⟨fun t ht => he.tables _ _ (h.table t ht), fun hp => he.namespaces (h.creating hp)⟩

theorem fits_failedWith (text why : String) : (failedWith text why).Fits cfg c := ⟨nofun, nofun⟩

theorem fits_load (outcome : Outcome) : (load cfg c outcome).Fits cfg c := by
  cases outcome with
  | answered =>
    unfold load
    dsimp only
    split
    next t ht => exact ⟨fun u hu => by cases hu; exact ht, nofun⟩
    next => exact ⟨nofun, nofun⟩
  | refused why => exact fits_failedWith _ why
  | lost why => exact fits_failedWith _ why

theorem fits_check (outcome : Outcome) : (check cfg c outcome).Fits cfg c := by
  cases outcome with
  | answered =>
    unfold check
    dsimp only
    split
    next hm => exact ⟨nofun, fun _ => hm⟩
    next => exact ⟨nofun, nofun⟩
  | refused why => exact fits_failedWith _ why
  | lost why => exact fits_failedWith _ why

theorem createNamespace_changes (cfg : IcebergConfig) (c : Catalog) (outcome : Outcome) :
    Changes cfg c (createNamespace cfg c outcome).1 ∧
    (createNamespace cfg c outcome).2.Fits cfg (createNamespace cfg c outcome).1 := by
  unfold createNamespace
  dsimp only
  by_cases hm : cfg.namespaceName ∈ c.namespaces
  · rw [if_pos hm]
    exact ⟨.same, fits_failedWith _ _⟩
  · rw [if_neg hm]
    cases outcome with
    | answered =>
      exact ⟨.namespaceMade hm, nofun, fun _ => List.mem_append_right _ (List.mem_singleton_self _)⟩
    | refused why => exact ⟨.same, fits_failedWith _ _⟩
    | lost why => exact ⟨.namespaceMade hm, fits_failedWith _ _⟩

theorem createTable_changes (cfg : IcebergConfig) (c : Catalog) (outcome : Outcome) :
    Changes cfg c (createTable cfg c outcome).1 ∧
    (createTable cfg c outcome).2.Fits cfg (createTable cfg c outcome).1 := by
  unfold createTable
  dsimp only
  by_cases hm : cfg.namespaceName ∈ c.namespaces
  · rw [if_neg (not_not.2 hm)]
    cases ht : c.tables (identOf cfg) with
    | some t => exact ⟨.same, fits_failedWith _ _⟩
    | none =>
      cases outcome with
      | answered =>
        refine ⟨.tableMade hm ht, fun u hu => ?_, nofun⟩
        cases hu
        exact Catalog.createTable_some.2 (.inl ⟨rfl, rfl⟩)
      | refused why => exact ⟨.same, fits_failedWith _ _⟩
      | lost why => exact ⟨.tableMade hm ht, fits_failedWith _ _⟩
  · rw [if_pos hm]
    exact ⟨.same, fits_failedWith _ _⟩

theorem fits_probe {table : Table} (h : c.tables (identOf cfg) = some table) (outcome : Outcome) :
    (probe cfg c table outcome).Fits cfg c := by
  cases outcome with
  | answered =>
    unfold probe
    dsimp only
    split
    next => exact ⟨nofun, nofun⟩
    next =>
      split
      next => exact ⟨nofun, nofun⟩
      next => exact ⟨fun u hu => by cases hu; exact h, nofun⟩
  | refused why => exact fits_failedWith _ why
  | lost why => exact fits_failedWith _ why

/-- A request changes the catalog in one of three ways, and leaves the process with the catalog's
table or with none. -/
theorem request_changes {p p' : Proc} {outcome : Outcome} (hp : p.Fits cfg c)
    (h : request cfg c outcome p = some (c', p')) : Changes cfg c c' ∧ p'.Fits cfg c' := by
  cases p with
  | loading =>
    cases h
    exact ⟨.same, fits_load outcome⟩
  | checking =>
    cases h
    exact ⟨.same, fits_check outcome⟩
  | creatingNamespace =>
    have hx : createNamespace cfg c outcome = (c', p') := Option.some.inj h
    simpa only [hx] using createNamespace_changes cfg c outcome
  | creatingTable =>
    have hx : createTable cfg c outcome = (c', p') := Option.some.inj h
    simpa only [hx] using createTable_changes cfg c outcome
  | probing table =>
    cases h
    exact ⟨.same, fits_probe (hp.table table rfl) outcome⟩
  | _ => cases h

end

/-! ## Safety -/

section
variable {cfgs : Nat → IcebergConfig} {catalog : Catalog} {s s' : State} {a : Action}

/-- What a step does: it starts a process, or ends a request of one. -/
inductive Took (cfgs : Nat → IcebergConfig) (s : State) : State → Prop
  | start (pid : Nat) : Took cfgs s { s with procs := Function.update s.procs pid .loading }
  | request (pid : Nat) (outcome : Outcome) {c : Catalog} {p : Proc}
      (h : Provisioning.request (cfgs pid) s.catalog outcome (s.procs pid) = some (c, p)) :
      Took cfgs s ⟨c, Function.update s.procs pid p,
        if p.isFailed then Function.update s.failures pid (s.failures pid + 1) else s.failures⟩

theorem step_took (hs : step cfgs s a = some s') : Took cfgs s s' := by
  cases a with
  | start pid =>
    cases hs
    exact .start pid
  | request pid outcome =>
    obtain ⟨⟨c, p⟩, h, rfl⟩ := Option.map_eq_some_iff.1 hs
    exact .request pid outcome h

/-- The invariant: the catalog extends the first one by what processes asked for, and each process
that has a table has the catalog's. -/
structure Inv (cfgs : Nat → IcebergConfig) (catalog : Catalog) (s : State) : Prop where
  ok : s.catalog.Ok
  fits : ∀ pid, (s.procs pid).Fits (cfgs pid) s.catalog
  origin : ∀ ident table, s.catalog.tables ident = some table →
    catalog.tables ident = some table ∨
      ∃ pid, identOf (cfgs pid) = ident ∧ table.creation = creationOf (cfgs pid)

theorem inv_init (h : catalog.Ok) : Inv cfgs catalog (.init catalog) :=
  ⟨h, fun _ => ⟨nofun, nofun⟩, fun _ _ ht => .inl ht⟩

theorem inv_step (h : Inv cfgs catalog s) (hs : step cfgs s a = some s') :
    Inv cfgs catalog s' ∧ s'.catalog.Extends s.catalog := by
  cases step_took hs with
  | start pid =>
    refine ⟨⟨h.ok, fun q => ?_, h.origin⟩, .refl _⟩
    show ((Function.update s.procs pid .loading) q).Fits _ _
    by_cases hq : q = pid
    · rw [hq, Function.update_self]
      exact ⟨nofun, nofun⟩
    · rw [Function.update_of_ne hq]
      exact h.fits q
  | @request pid outcome c p hr =>
    obtain ⟨hc, hp⟩ := request_changes (h.fits pid) hr
    refine ⟨⟨hc.ok h.ok, fun q => ?_, fun ident table ht => ?_⟩, hc.extends⟩
    · show ((Function.update s.procs pid p) q).Fits _ _
      by_cases hq : q = pid
      · rw [hq, Function.update_self]
        exact hp
      · rw [Function.update_of_ne hq]
        exact (h.fits q).mono hc.extends
    · rcases hc.origin ht with ht | ⟨rfl, hcreation⟩
      · exact h.origin ident table ht
      · exact .inr ⟨pid, rfl, hcreation⟩

/-- The invariant holds after every run, and nothing of the catalog is lost on the way. -/
theorem inv_run {as : List Action} (h : Inv cfgs catalog s)
    (hr : Machine.run (step cfgs) s as = some s') :
    Inv cfgs catalog s' ∧ s'.catalog.Extends s.catalog := by
  refine Machine.run_inv (I := fun m => Inv cfgs catalog m ∧ m.catalog.Extends s.catalog)
    (fun m a m' hm hs => ?_) ⟨h, .refl _⟩ hr
  obtain ⟨hi, he⟩ := inv_step hm.1 hs
  exact ⟨hi, hm.2.trans he⟩

/-- **Provisioning is safe**: in every run of any number of processes, whose requests fail or lose
their answers as they may, a table once there stays as it is; two processes that have found or made
their tables have the same one when their destinations are the same and different ones when not; and
a table that was not there at first has our schema and partition spec. -/
theorem ensure_agrees (hc : catalog.Ok) {as bs : List Action}
    (hr : Machine.run (step cfgs) (.init catalog) as = some s)
    (hr' : Machine.run (step cfgs) s bs = some s') :
    (∀ ident table, s.catalog.tables ident = some table → s'.catalog.tables ident = some table) ∧
    (∀ p q t u, (s.procs p).table? = some t → (s'.procs q).table? = some u →
      (t.uuid = u.uuid ↔ identOf (cfgs p) = identOf (cfgs q)) ∧
      (identOf (cfgs p) = identOf (cfgs q) → t = u)) ∧
    (∀ ident table, s.catalog.tables ident = some table → catalog.tables ident = some table ∨
      table.creation.schema = tableSchema ∧
        table.creation.partitionSpec = unboundPartitionSpec ∧ table.creation.name = ident.name) := by
  obtain ⟨hi, -⟩ := inv_run (inv_init hc) hr
  obtain ⟨hi', he⟩ := inv_run hi hr'
  refine ⟨he.tables, fun p q t u ht hu => ?_, fun ident table ht => ?_⟩
  · have ht' := he.tables _ _ ((hi.fits p).table t ht)
    have hu' := (hi'.fits q).table u hu
    have hsame : identOf (cfgs p) = identOf (cfgs q) → t = u := fun h => by
      rw [h, hu'] at ht'
      exact (Option.some.inj ht').symm
    refine ⟨⟨fun h => hi'.ok.distinct _ _ t u ht' hu' h, fun h => ?_⟩, hsame⟩
    rw [hsame h]
  · rcases hi.origin ident table ht with ht | ⟨pid, rfl, hcreation⟩
    · exact .inl ht
    · rw [hcreation]
      exact .inr ⟨rfl, rfl, rfl⟩

end

/-- A catalog with nothing in it. -/
def bare : Catalog := ⟨[], fun _ => none, 0⟩

def destination (table : String) : IcebergConfig where
  uri := "http://lakekeeper-lakekeeper.default.svc.cluster.local:8181/catalog"
  warehouse := "crypto_lakehouse"
  credential := none
  namespaceName := "trades"
  table
  s3Endpoint := "http://garage-svc.garage.svc.cluster.local:3900"
  s3Region := "eu-lambronx-1"
  s3AccessKeyId := "key"
  s3SecretAccessKey := "secret"
  s3PathStyle := true
  parquetCompression := "zstd"
  targetFileSize := 134217728
  commitRetries := 5

/-- Two batchers, and the init container of a swap target. -/
def destinations (pid : Nat) : IcebergConfig :=
  destination (if pid = 2 then "trades_dedup" else "trades")

/-- The first makes the table and loses the answer; the second finds it. -/
def answerLost : List Action :=
  [.start 0, .start 1, .start 2, .request 0 .answered, .request 0 .answered, .request 0 .answered,
    .request 0 (.lost "connection reset"), .request 1 .answered, .request 2 .answered,
    .request 2 .answered, .request 2 .answered, .request 1 .answered]

theorem ensure_agrees_lost : ∃ (s s' : State) (t u v : Table),
    s.catalog.tables (identOf (destinations 1)) = some t ∧ (s.procs 1).table? = some t ∧
    (s'.procs 0).table? = some u ∧ (s'.procs 2).table? = some v ∧
    t = u ∧ t.uuid ≠ v.uuid ∧ t.creation.schema = tableSchema := by
  have hx : (Machine.run (step destinations) (.init bare) answerLost).bind (fun s =>
      (Machine.run (step destinations) s [.start 0, .request 0 .answered]).map fun s' =>
        (s.catalog.tables (identOf (destinations 1)), (s.procs 1).table?, (s'.procs 0).table?,
          (s'.procs 2).table?)) =
      some (some ⟨0, creationOf (destinations 1)⟩, some ⟨0, creationOf (destinations 1)⟩,
        some ⟨0, creationOf (destinations 0)⟩, some ⟨1, creationOf (destinations 2)⟩) := by
    decide +kernel
  obtain ⟨s, hs, hx⟩ := Option.bind_eq_some_iff.1 hx
  obtain ⟨s', hs', hx⟩ := Option.map_eq_some_iff.1 hx
  simp only [Prod.mk.injEq] at hx
  obtain ⟨hc, ht, hu, hv⟩ := hx
  have hok : bare.Ok := ⟨nofun, nofun, nofun⟩
  obtain ⟨-, hagree, horigin⟩ := ensure_agrees hok hs hs'
  have hne : ¬identOf (destinations 1) = identOf (destinations 2) := by decide
  refine ⟨s, s', _, _, _, hc, ht, hu, hv, (hagree 1 0 _ _ ht hu).2 rfl,
    fun h => hne ((hagree 1 2 _ _ ht hv).1.1 h), ?_⟩
  rcases horigin _ _ hc with h | ⟨hschema, -⟩
  · cases h
  · exact hschema

/-! ## Failures -/

/-- How often a process can still fail before it loads its table: once for the namespace and once
for the table, where others may yet make them first. -/
def allowance (cfg : IcebergConfig) (c : Catalog) : Nat :=
  if (c.tables (identOf cfg)).isSome then 0 else if cfg.namespaceName ∈ c.namespaces then 1 else 2

/-- The same of a process that is under way: what it has found missing may be there by now. -/
def Proc.allowance (cfg : IcebergConfig) (c : Catalog) : Proc → Nat
  | checking => if cfg.namespaceName ∈ c.namespaces then 1 else 2
  | creatingNamespace => if (c.tables (identOf cfg)).isSome then 1 else 2
  | creatingTable => 1
  | probing _ => 0
  | idle | loading | ready _ | failed _ => Provisioning.allowance cfg c

section
variable {cfg : IcebergConfig} {c c' : Catalog} {p p' : Proc}

theorem isSome_of_extends (he : c'.Extends c) {ident : TableIdent}
    (h : (c.tables ident).isSome = true) : (c'.tables ident).isSome = true := by
  obtain ⟨t, ht⟩ := Option.isSome_iff_exists.1 h
  simp [he.tables ident t ht]

/-- What others make takes nothing away. -/
theorem allowance_mono (he : c'.Extends c) (p : Proc) : p.allowance cfg c' ≤ p.allowance cfg c := by
  have ht : (c.tables (identOf cfg)).isSome = true → (c'.tables (identOf cfg)).isSome = true :=
    isSome_of_extends he
  have hn : cfg.namespaceName ∈ c.namespaces → cfg.namespaceName ∈ c'.namespaces :=
    fun h => he.namespaces h
  have hall : allowance cfg c' ≤ allowance cfg c := by
    unfold allowance
    split_ifs <;> simp_all
  cases p with
  | checking =>
    simp only [Proc.allowance]
    split_ifs <;> simp_all
  | creatingNamespace =>
    simp only [Proc.allowance]
    split_ifs <;> simp_all
  | creatingTable => exact Nat.le_refl 1
  | probing _ => exact Nat.le_refl 0
  | _ => exact hall

theorem allowance_le_one (hn : cfg.namespaceName ∈ c.namespaces) : allowance cfg c ≤ 1 := by
  unfold allowance
  split_ifs <;> omega

/-- A restart costs nothing. -/
theorem start_pays (hp : p.Fits cfg c) : allowance cfg c ≤ p.allowance cfg c := by
  cases p with
  | checking =>
    simp only [Proc.allowance, allowance]
    split_ifs <;> omega
  | creatingNamespace =>
    simp only [Proc.allowance, allowance]
    split_ifs <;> omega
  | creatingTable => exact allowance_le_one (hp.creating rfl)
  | probing t => simp [Proc.allowance, allowance, hp.table t rfl]
  | _ => exact Nat.le_refl _

/-- What the answer of the catalog costs the process. -/
theorem request_pays (h : c.Ok) (hp : p.Fits cfg c)
    (hr : request cfg c .answered p = some (c', p')) :
    (if p'.isFailed then 1 else 0) + p'.allowance cfg c' ≤ p.allowance cfg c := by
  have hin : (c.tables (identOf cfg)).isSome = true → cfg.namespaceName ∈ c.namespaces := fun ht =>
    let ⟨t, ht⟩ := Option.isSome_iff_exists.1 ht
    h.inNamespace _ t ht
  cases p with
  | loading =>
    cases hr
    cases ht : c.tables (identOf cfg) <;>
      simp [load, ht, Proc.isFailed, Proc.allowance, allowance]
  | checking =>
    cases hr
    by_cases hn : cfg.namespaceName ∈ c.namespaces
    · simp [check, hn, Proc.isFailed, Proc.allowance]
    · have hle : (if (c.tables (identOf cfg)).isSome then 1 else 2) ≤ 2 := by split_ifs <;> omega
      simpa [check, hn, Proc.isFailed, Proc.allowance] using hle
  | creatingNamespace =>
    have hx : createNamespace cfg c .answered = (c', p') := Option.some.inj hr
    by_cases hn : cfg.namespaceName ∈ c.namespaces
    · -- Somebody else has made it: a failure, after which it is there.
      simp only [createNamespace, if_pos hn, failedWith, Prod.mk.injEq] at hx
      obtain ⟨rfl, rfl⟩ := hx
      have := allowance_le_one hn
      simp only [Proc.isFailed, Proc.allowance, allowance, hn, if_true] at this ⊢
      split_ifs <;> omega
    · have ht : ¬(c.tables (identOf cfg)).isSome = true := fun ht => hn (hin ht)
      simp only [createNamespace, if_neg hn, Prod.mk.injEq] at hx
      obtain ⟨rfl, rfl⟩ := hx
      simp [Proc.isFailed, Proc.allowance, ht]
  | creatingTable =>
    have hx : createTable cfg c .answered = (c', p') := Option.some.inj hr
    have hn := hp.creating rfl
    by_cases ht : (c.tables (identOf cfg)).isSome = true
    · simp only [createTable, hn, not_true_eq_false, if_false, if_pos ht, failedWith,
        Prod.mk.injEq] at hx
      obtain ⟨rfl, rfl⟩ := hx
      simp [Proc.isFailed, Proc.allowance, allowance, ht]
    · simp only [createTable, hn, not_true_eq_false, if_false, if_neg ht, Prod.mk.injEq] at hx
      obtain ⟨rfl, rfl⟩ := hx
      simp [Proc.isFailed, Proc.allowance]
  | probing t =>
    cases hr
    have ht := hp.table t rfl
    have hn := h.inNamespace _ t ht
    simp [probe, ht, show cfg.namespaceName ∈ c.namespaces from hn, Proc.isFailed, Proc.allowance,
      allowance]
  | _ => cases hr

end

section
variable {cfgs : Nat → IcebergConfig} {catalog : Catalog} {s s' : State} {a : Action}

/-- The catalog answers. -/
def Action.Answered : Action → Prop
  | .start _ => True
  | .request _ outcome => outcome = .answered

/-- No process has used up more than its allowance at the beginning. -/
structure Budget (cfgs : Nat → IcebergConfig) (catalog : Catalog) (s : State) : Prop where
  inv : Inv cfgs catalog s
  paid : ∀ pid, s.failures pid + (s.procs pid).allowance (cfgs pid) s.catalog ≤
    allowance (cfgs pid) catalog

theorem budget_step (ha : a.Answered) (h : Budget cfgs catalog s) (hs : step cfgs s a = some s') :
    Budget cfgs catalog s' := by
  refine ⟨(inv_step h.inv hs).1, fun q => ?_⟩
  have hq := h.paid q
  cases a with
  | start pid =>
    cases hs
    dsimp only
    by_cases hqp : q = pid
    · subst hqp
      have := start_pays (h.inv.fits q)
      rw [Function.update_self]
      simp only [Proc.allowance]
      omega
    · rw [Function.update_of_ne hqp]
      exact hq
  | request pid outcome =>
    cases (ha : outcome = .answered)
    obtain ⟨⟨c, p⟩, hr, rfl⟩ := Option.map_eq_some_iff.1 hs
    dsimp only at hr ⊢
    by_cases hqp : q = pid
    · subst hqp
      have := request_pays h.inv.ok (h.inv.fits q) hr
      rw [Function.update_self]
      split_ifs at this ⊢
      · rw [Function.update_self]
        omega
      · omega
    · have hmono : (s.procs q).allowance (cfgs q) c ≤ (s.procs q).allowance (cfgs q) s.catalog :=
        allowance_mono (request_changes (h.inv.fits pid) hr).1.extends _
      rw [Function.update_of_ne hqp]
      split_ifs
      · rw [Function.update_of_ne hqp]
        omega
      · omega

/-! ## Success -/

/-- On its own, the process is ready after at most `n` answers of the catalog. -/
def ReadyWithin (cfgs : Nat → IcebergConfig) (pid n : Nat) (c : Catalog) (p : Proc) : Prop :=
  ∀ s : State, s.catalog = c → s.procs pid = p → ∃ m ≤ n, ∃ s' table,
    Machine.run (step cfgs) s (List.replicate m (.request pid .answered)) = some s' ∧
    s'.procs pid = .ready table ∧ s'.failures = s.failures

variable {pid n : Nat} {c c' : Catalog} {p p' : Proc}

/-- One answer. -/
theorem ReadyWithin.request (h : ReadyWithin cfgs pid n c' p')
    (hr : Provisioning.request (cfgs pid) c .answered p = some (c', p'))
    (hf : p'.isFailed = false) : ReadyWithin cfgs pid (n + 1) c p := by
  intro s hc hp
  subst hc hp
  have hstep : step cfgs s (.request pid .answered) =
      some ⟨c', Function.update s.procs pid p', s.failures⟩ := by
    simp [step, hr, hf]
  obtain ⟨m, hm, s', table, hrun, hready, hfail⟩ :=
    h ⟨c', Function.update s.procs pid p', s.failures⟩ rfl (Function.update_self ..)
  exact ⟨m + 1, by omega, s', table, Machine.run_cons.2 ⟨_, hstep, hrun⟩, hready, hfail⟩

theorem ready_probing (h : c.Ok) {table : Table} (ht : c.tables (identOf (cfgs pid)) = some table) :
    ReadyWithin cfgs pid 1 c (.probing table) := by
  have hn : (cfgs pid).namespaceName ∈ c.namespaces := h.inNamespace _ table ht
  have hready : ReadyWithin cfgs pid 0 c (.ready table) := fun s _ hp =>
    ⟨0, Nat.le_refl 0, s, table, rfl, hp, rfl⟩
  refine hready.request ?_ rfl
  simp [Provisioning.request, probe, hn, ht]

theorem ready_creatingTable (h : c.Ok) (hn : (cfgs pid).namespaceName ∈ c.namespaces)
    (ht : c.tables (identOf (cfgs pid)) = none) : ReadyWithin cfgs pid 2 c .creatingTable := by
  have hprobe := ready_probing ((Changes.tableMade hn ht).ok h)
    (Catalog.createTable_some.2 (.inl ⟨rfl, rfl⟩))
  refine hprobe.request ?_ rfl
  simp [Provisioning.request, createTable, hn, ht]

theorem ready_checking (h : c.Ok) (ht : c.tables (identOf (cfgs pid)) = none) :
    ReadyWithin cfgs pid 4 c .checking := by
  by_cases hn : (cfgs pid).namespaceName ∈ c.namespaces
  · have hr : Provisioning.request (cfgs pid) c .answered .checking = some (c, .creatingTable) := by
      simp [Provisioning.request, check, hn]
    have hready := (ready_creatingTable h hn ht).request hr rfl
    intro s hc hp
    obtain ⟨m, hm, hx⟩ := hready s hc hp
    exact ⟨m, by omega, hx⟩
  · have hr : Provisioning.request (cfgs pid) c .answered .checking =
        some (c, .creatingNamespace) := by
      simp [Provisioning.request, check, hn]
    have hr' : Provisioning.request (cfgs pid) c .answered .creatingNamespace =
        some (c.createNamespace (cfgs pid).namespaceName, .creatingTable) := by
      simp [Provisioning.request, createNamespace, hn]
    have hready : ReadyWithin cfgs pid 2 _ .creatingTable :=
      ready_creatingTable ((Changes.namespaceMade hn).ok h)
        (List.mem_append_right _ (List.mem_singleton_self _)) ht
    exact (hready.request hr' rfl).request hr rfl

theorem ready_loading (h : c.Ok) : ReadyWithin cfgs pid 5 c .loading := by
  cases ht : c.tables (identOf (cfgs pid)) with
  | none =>
    refine (ready_checking h ht).request ?_ rfl
    simp [Provisioning.request, load, ht]
  | some table =>
    have hr : Provisioning.request (cfgs pid) c .answered .loading = some (c, .probing table) := by
      simp [Provisioning.request, load, ht]
    intro s hc hp
    obtain ⟨m, hm, hx⟩ := (ready_probing h ht).request hr rfl s hc hp
    exact ⟨m, by omega, hx⟩

/-- **Provisioning converges**: while the catalog answers, races can make a process fail at most
twice however many others run and however often each is started again, once when its namespace was
there at first, and never when its table was; and from every state of every run, with whatever
failures, one start and at most five answers bring a process that is on its own to its table. -/
theorem ensure_converges (hc : catalog.Ok) {as : List Action}
    (hr : Machine.run (step cfgs) (.init catalog) as = some s) (pid : Nat) :
    ((∀ a ∈ as, a.Answered) → s.failures pid ≤
      if (catalog.tables (identOf (cfgs pid))).isSome then 0
      else if (cfgs pid).namespaceName ∈ catalog.namespaces then 1 else 2) ∧
    ∃ n ≤ 5, ∃ s' table,
      Machine.run (step cfgs) s (.start pid :: List.replicate n (.request pid .answered)) =
        some s' ∧
      s'.procs pid = .ready table ∧ s'.catalog.tables (identOf (cfgs pid)) = some table ∧
      s'.failures = s.failures := by
  obtain ⟨hinv, -⟩ := inv_run (inv_init hc) hr
  refine ⟨fun ha => ?_, ?_⟩
  · have hstart : Budget cfgs catalog (.init catalog) :=
      ⟨inv_init hc, fun q => Nat.le_of_eq (Nat.zero_add _)⟩
    have hb := Machine.run_inv_of (fun _ _ _ ha h hs => budget_step ha h hs) ha hstart hr
    exact Nat.le_trans (Nat.le_add_right _ _) (hb.paid pid)
  · have hstep : step cfgs s (.start pid) =
        some { s with procs := Function.update s.procs pid .loading } := rfl
    obtain ⟨n, hn, s', table, hrun, hready, hfail⟩ :=
      ready_loading hinv.ok { s with procs := Function.update s.procs pid .loading } rfl
        (Function.update_self ..)
    have hrun' := Machine.run_cons.2 ⟨_, hstep, hrun⟩
    obtain ⟨hinv', -⟩ := inv_run hinv hrun'
    have ht := (hinv'.fits pid).table table (by rw [hready]; rfl)
    exact ⟨n, hn, s', table, hrun', hready, ht, hfail⟩

end

/-- The first loses both races, for the namespace and for the table. -/
def twoRaces : List Action :=
  [.start 0, .start 1, .request 0 .answered, .request 1 .answered, .request 0 .answered,
    .request 1 .answered, .request 1 .answered, .request 0 .answered, .start 0,
    .request 0 .answered, .request 0 .answered, .request 1 .answered, .request 0 .answered]

theorem ensure_converges_raced : ∃ s : State, s.failures 0 = 2 ∧ ∃ n ≤ 5, ∃ s' table,
    Machine.run (step destinations) s (.start 0 :: List.replicate n (.request 0 .answered)) =
      some s' ∧
    s'.procs 0 = .ready table := by
  have hx : (Machine.run (step destinations) (.init bare) twoRaces).map (·.failures 0) = some 2 := by
    decide +kernel
  obtain ⟨s, hs, hfail⟩ := Option.map_eq_some_iff.1 hx
  have hok : bare.Ok := ⟨nofun, nofun, nofun⟩
  have hanswered : ∀ a ∈ twoRaces, a.Answered := by simp [twoRaces, Action.Answered]
  obtain ⟨hle, n, hn, s', table, hrun, hready, -⟩ := ensure_converges hok hs 0
  exact ⟨s, Nat.le_antisymm (hle hanswered) hfail.ge, n, hn, s', table, hrun, hready⟩

end Provisioning
